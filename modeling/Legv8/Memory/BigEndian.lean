import Legv8.Word

set_option autoImplicit false

namespace Legv8.BigEndian

def bytes (v : Word) : List Byte :=
  (List.range 8).map fun k => v.extractLsb' (8 * (7 - k)) 8

-- There are never more than eight.
def tail (v : Word) (n : Nat) : List Byte :=
  (bytes v).drop (8 - n)

-- The word whose last bytes are those of a list, with zeros in front. Only the first eight bytes of
-- the list count.
def value (bs : List Byte) : Word :=
  (bs.take 8).foldl (fun v b => v <<< 8 ||| b.setWidth 64) 0

@[simp] theorem length_bytes (v : Word) : (bytes v).length = 8 := by
  simp [bytes]

@[simp] theorem length_tail (v : Word) (n : Nat) : (tail v n).length = min n 8 := by
  simp only [tail, List.length_drop, length_bytes]
  omega

end Legv8.BigEndian
