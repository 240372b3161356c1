set_option autoImplicit false

namespace Legv8

variable {ε α β : Type}

theorem ok_bind (a : α) (f : α → Except ε β) : (.ok a >>= f) = f a := rfl

theorem bind_eq_ok {x : Except ε α} {f : α → Except ε β} {b : β} :
    (x >>= f) = .ok b ↔ ∃ a, x = .ok a ∧ f a = .ok b := by
  cases x with
  | error e => simp [bind, Except.bind]
  | ok a => simp [bind, Except.bind]

theorem pure_eq_ok {a b : α} : (pure a : Except ε α) = .ok b ↔ a = b := by
  simp [pure, Except.pure]

theorem mapError_eq_ok {δ : Type} {x : Except ε α} {f : ε → δ} {a : α} :
    x.mapError f = .ok a ↔ x = .ok a := by
  cases x with
  | error e => exact ⟨(fun failed => nomatch failed), (fun failed => nomatch failed)⟩
  | ok b =>
    constructor
    · exact fun done => congrArg Except.ok (Except.ok.inj done)
    · exact fun done => congrArg Except.ok (Except.ok.inj done)

theorem eq_ok_of_toOption {x : Except ε α} {a : α} (some : x.toOption = some a) : x = .ok a := by
  cases x with
  | error e => cases some
  | ok b => exact congrArg Except.ok (Option.some.inj some)

def failure? : Except ε α → Option ε
  | .error e => some e
  | .ok _ => none

theorem failure?_eq_some {x : Except ε α} {e : ε} : failure? x = some e ↔ x = .error e := by
  cases x <;> simp [failure?]

section Calls

variable {σ κ ρ : Type} (call : σ → κ → ρ × σ)

def behind (s : σ) (calls : List κ) : σ :=
  calls.foldl (fun s c => (call s c).2) s

def replies (s : σ) : List κ → List (ρ × σ)
  | [] => []
  | c :: calls => call s c :: replies (call s c).2 calls

variable {call}

theorem behind_induction {P : σ → Prop} {s : σ} (holds : P s)
    (kept : ∀ s c, P s → P (call s c).2) (calls : List κ) : P (behind call s calls) := by
  induction calls generalizing s with
  | nil => exact holds
  | cons c calls ih => exact ih (kept s c holds)

theorem replies_eq_replicate_iff {s : σ} {r : ρ} {calls : List κ} :
    replies call s calls = List.replicate calls.length (r, s) ↔
      ∀ c ∈ calls, call s c = (r, s) := by
  induction calls with
  | nil => simp [replies]
  | cons c calls ih =>
    rw [replies, List.length_cons, List.replicate_succ, List.cons.injEq, List.forall_mem_cons]
    refine and_congr_right fun same => ?_
    rw [same, ih]

end Calls

end Legv8
