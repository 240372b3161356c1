import Legv8.Config.Reader
import Legv8.Proofs.Alu.Product
import Legv8.Proofs.Flags.Carry
import Legv8.Proofs.Instruction.Decode
import Legv8.Proofs.Instruction.Immediate
import Legv8.Proofs.Line.Grammar
import Legv8.Proofs.Line.Missing
import Legv8.Proofs.Machine.Comparison
import Legv8.Proofs.Machine.Exclusive
import Legv8.Proofs.Machine.Frame
import Legv8.Proofs.Machine.RegisterBranch
import Legv8.Proofs.Machine.WideMove
import Legv8.Proofs.Memory.History
import Legv8.Proofs.Memory.Window
import Legv8.Proofs.Pipeline.Fault
import Legv8.Proofs.Program.Errors
import Legv8.Proofs.Program.LabelWords
import Legv8.Proofs.Program.Labels
import Legv8.Proofs.Program.RoundTrip
import Legv8.Proofs.Register.History
import Legv8.Proofs.Simulator.CompareBranch
import Legv8.Proofs.Simulator.Drain
import Legv8.Proofs.Simulator.Fault
import Legv8.Proofs.Simulator.ProgramCounter
import Legv8.Proofs.Simulator.Run
import Legv8.Proofs.Simulator.Sound
import Legv8.Proofs.Token.Span
import Legv8.Simulator.Pipelined
import Legv8.Simulator.SingleCycle
import Legv8.Statistics.Report
