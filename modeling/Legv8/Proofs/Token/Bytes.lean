import Legv8.Proofs.Token.Catalog

set_option autoImplicit false

namespace Legv8

namespace Text

def utf8 (cs : List Char) : List UInt8 :=
  cs.flatMap String.utf8EncodeChar

def byteChars (cs : List Char) : List Char :=
  (utf8 cs).map Char.ofUInt8

def bytes (text : String) : List UInt8 :=
  text.toUTF8.data.toList

theorem bytes_eq (text : String) : bytes text = utf8 text.toList := by
  rw [bytes, String.toUTF8, ← String.utf8Encode_toList, List.utf8Encode,
    List.toList_data_toByteArray, utf8]

variable {c : Char} {cs : List Char}

theorem utf8_append (cs ds : List Char) : utf8 (cs ++ ds) = utf8 cs ++ utf8 ds :=
  List.flatMap_append

theorem utf8_length (text : String) : (utf8 text.toList).length = text.utf8ByteSize := by
  rw [← bytes_eq]
  rfl

theorem utf8_ne (nonempty : cs ≠ []) : utf8 cs ≠ [] := by
  cases cs with
  | nil => exact absurd rfl nonempty
  | cons c cs =>
    rw [← List.length_pos_iff, utf8, List.flatMap_cons, List.length_append,
      String.length_utf8EncodeChar]
    exact Nat.add_pos_left c.utf8Size_pos _

theorem toNat_ofUInt8 (b : UInt8) : (Char.ofUInt8 b).toNat = b.toNat :=
  rfl

theorem utf8EncodeChar_ascii (ascii : c.toNat < 128) :
    ∃ b, String.utf8EncodeChar c = [b] ∧ Char.ofUInt8 b = c := by
  refine ⟨UInt8.ofNat c.val.toNat, if_pos (Nat.le_of_lt_succ ascii), Char.toNat_inj.1 ?_⟩
  have small : c.val.toNat < 2 ^ 8 := ascii.trans (by decide)
  rw [toNat_ofUInt8, UInt8.toNat_ofNat', Nat.mod_eq_of_lt small]
  rfl

theorem utf8EncodeChar_other (other : ¬ c.toNat < 128) :
    String.utf8EncodeChar c ≠ [] ∧
      ∀ b ∈ String.utf8EncodeChar c, ¬ (Char.ofUInt8 b).toNat < 128 := by
  have wide : ¬ c.val.toNat ≤ 127 := fun small => other (Nat.lt_succ_of_le small)
  simp only [toNat_ofUInt8]
  unfold String.utf8EncodeChar
  simp only [wide, if_false]
  split
  · simp
    omega
  · split
    · simp
      omega
    · simp
      omega

theorem byteChars_append (cs ds : List Char) :
    byteChars (cs ++ ds) = byteChars cs ++ byteChars ds := by
  rw [byteChars, utf8_append, List.map_append, byteChars, byteChars]

theorem byteChars_length : (byteChars cs).length = (utf8 cs).length :=
  List.length_map _

theorem byteChars_cons_ascii (ascii : c.toNat < 128) : byteChars (c :: cs) = c :: byteChars cs := by
  obtain ⟨b, bytes, same⟩ := utf8EncodeChar_ascii ascii
  rw [byteChars, utf8, List.flatMap_cons, bytes, List.singleton_append, List.map_cons, same]
  rfl

theorem byteChars_cons_other (other : ¬ c.toNat < 128) :
    ∃ d ds, (∀ cs, byteChars (c :: cs) = d :: ds ++ byteChars cs) ∧
      ∀ e ∈ d :: ds, ¬ e.toNat < 128 := by
  obtain ⟨nonempty, beyond⟩ := utf8EncodeChar_other other
  obtain ⟨b, bs, bytes⟩ := List.exists_cons_of_ne_nil nonempty
  rw [bytes] at beyond
  refine ⟨Char.ofUInt8 b, bs.map Char.ofUInt8, fun cs => ?_, ?_⟩
  · rw [byteChars, utf8, List.flatMap_cons, bytes, List.map_append, List.map_cons]
    rfl
  · rw [← List.map_cons]
    exact List.forall_mem_map.2 beyond

theorem byteChars_ascii (ascii : ∀ c ∈ cs, c.toNat < 128) : byteChars cs = cs := by
  induction cs with
  | nil => rfl
  | cons c cs ih =>
    rw [List.forall_mem_cons] at ascii
    rw [byteChars_cons_ascii ascii.1, ih ascii.2]

theorem isSpace_ascii (space : isSpace c = true) : c.toNat < 128 := by
  simp only [isSpace, isBlank, Bool.or_eq_true, beq_iff_eq, or_assoc] at space
  rcases space with rfl | rfl | rfl | rfl | rfl | rfl <;> decide

theorem not_isSpace (graphic : isGraphic c = true) : isSpace c = false := by
  rw [Bool.eq_false_iff]
  intro space
  have white := isWhiteSpace_of_isSpace space
  simp [not_isWhiteSpace graphic] at white

def spaces : List UInt8 :=
  [0x20, 0x09, 0x0a, 0x0b, 0x0c, 0x0d]

theorem mem_spaces {b : UInt8} : b ∈ spaces ↔ isSpace (Char.ofUInt8 b) = true := by
  have table : ∀ n < 256, UInt8.ofNat n ∈ spaces ↔
      isSpace (Char.ofUInt8 (UInt8.ofNat n)) = true := by
    decide +kernel
  simpa using table b.toNat b.toNat_lt

theorem mem_spaces_utf8 {b : UInt8} (member : b ∈ String.utf8EncodeChar c) :
    b ∈ spaces ↔ isSpace c = true := by
  rw [mem_spaces]
  by_cases ascii : c.toNat < 128
  · obtain ⟨d, single, same⟩ := utf8EncodeChar_ascii ascii
    rw [single, List.mem_singleton] at member
    rw [member, same]
  · have beyond := (utf8EncodeChar_other ascii).2 b member
    exact iff_of_false (fun space => beyond (isSpace_ascii space))
      fun space => ascii (isSpace_ascii space)

end Text

def CharSet.isAscii (s : CharSet) : Bool :=
  !s.negated && s.ranges.all fun r => r.2.toNat < 128

theorem CharSet.isAscii_of_contains {s : CharSet} {c : Char} (plain : s.isAscii = true)
    (inside : s.contains c = true) : c.toNat < 128 := by
  rw [isAscii, Bool.and_eq_true, Bool.not_eq_true', List.all_eq_true] at plain
  rw [contains, plain.1, Bool.bne_false, List.any_eq_true] at inside
  obtain ⟨r, member, between⟩ := inside
  rw [Bool.and_eq_true, decide_eq_true_eq, decide_eq_true_eq] at between
  have upper : c.toNat ≤ r.2.toNat := between.2
  exact upper.trans_lt (of_decide_eq_true (plain.2 r member))

namespace Pattern

def IsAscii (p : Pattern) : Prop :=
  ∀ s ∈ p.sets, s.isAscii = true

variable {p q : Pattern} {s : CharSet} {cs : List Char}

theorem isAscii_seq (first : p.IsAscii) (second : q.IsAscii) : (seq p q).IsAscii :=
  List.forall_mem_append.2 ⟨first, second⟩

theorem isAscii_oneOf {ps : List Pattern} (each : ∀ p ∈ ps, p.IsAscii) : (oneOf ps).IsAscii := by
  induction ps with
  | nil => exact List.forall_mem_singleton.2 rfl
  | cons p ps ih =>
    rw [List.forall_mem_cons] at each
    exact List.forall_mem_append.2 ⟨each.1, ih each.2⟩

theorem isAscii_text {t : String} (letters : ∀ c ∈ t.toList, c.toNat < 128) :
    (text t).IsAscii := by
  rw [text]
  generalize t.toList = cs at letters
  induction cs with
  | nil => exact List.forall_mem_nil _
  | cons c cs ih =>
    rw [List.forall_mem_cons] at letters
    refine isAscii_seq (List.forall_mem_singleton.2 ?_) (ih letters.2)
    simpa [CharSet.isAscii, CharSet.only] using letters.1

theorem Matches.ascii (whole : p.Matches cs) (plain : p.IsAscii) : ∀ c ∈ cs, c.toNat < 128 := by
  intro c member
  obtain ⟨s, own, inside⟩ := whole.contained c member
  exact CharSet.isAscii_of_contains (plain s own) inside

open Text

theorem head_byteChars (plain : s.isAscii = true) :
    (byteChars cs).head?.any s.contains = cs.head?.any s.contains := by
  cases cs with
  | nil => rfl
  | cons c cs =>
    by_cases ascii : c.toNat < 128
    · rw [byteChars_cons_ascii ascii, List.head?_cons, List.head?_cons]
    · have outside {c : Char} (other : ¬ c.toNat < 128) : s.contains c = false :=
        Bool.eq_false_iff.2 fun inside => other (CharSet.isAscii_of_contains plain inside)
      obtain ⟨d, ds, bytes, others⟩ := byteChars_cons_other ascii
      rw [bytes, List.cons_append, List.head?_cons, List.head?_cons, Option.any_some,
        Option.any_some, outside ascii, outside (others d List.mem_cons_self)]

theorem repeats_byteChars (plain : s.isAscii = true) :
    repeats s (byteChars cs) = repeats s cs := by
  have stop {cs : List Char} (other : cs.head?.any s.contains = false) : repeats s cs = [] := by
    cases cs with
    | nil => rfl
    | cons c cs => exact if_neg (by simpa using other)
  induction cs with
  | nil => rfl
  | cons c cs ih =>
    by_cases inside : s.contains c = true
    · rw [byteChars_cons_ascii (CharSet.isAscii_of_contains plain inside), repeats, repeats, ih]
    · have other : (c :: cs).head?.any s.contains = false := by simpa using inside
      rw [stop other, stop ((head_byteChars plain).trans other)]

-- An expression of ASCII characters finds in the bytes of a text what it finds in its characters.
theorem lengths_byteChars (plain : p.IsAscii) : p.lengths (byteChars cs) = p.lengths cs := by
  induction p generalizing cs with
  | empty => rfl
  | one s => rw [lengths, lengths, head_byteChars (plain s (List.mem_singleton_self s))]
  | many s => exact repeats_byteChars (plain s (List.mem_singleton_self s))
  | seq p q ihp ihq =>
    obtain ⟨front, behind⟩ := List.forall_mem_append.1 plain
    rw [lengths, lengths, ihp front]
    refine List.flatMap_congr fun n member => ?_
    -- what was matched so far are as many bytes as characters
    obtain ⟨short, whole⟩ := mem_lengths.1 member
    have dropped : (byteChars cs).drop n = byteChars (cs.drop n) := by
      have length : (cs.take n).length = n := List.length_take_of_le short
      calc (byteChars cs).drop n
          = (byteChars (cs.take n ++ cs.drop n)).drop (cs.take n).length := by
            rw [List.take_append_drop, length]
        _ = byteChars (cs.drop n) := by
            rw [byteChars_append, byteChars_ascii (whole.ascii front), List.drop_left]
    rw [dropped, ihq behind]
  | either p q ihp ihq =>
    obtain ⟨front, behind⟩ := List.forall_mem_append.1 plain
    rw [lengths, lengths, ihp front, ihq behind]

end Pattern

namespace TokenKind

open Text

variable {cs : List Char} {n : Nat}

theorem isAscii_pattern {k : TokenKind} (visible : k ≠ .stray) : k.pattern.IsAscii := by
  cases k with
  | mnemonic f =>
    refine Pattern.isAscii_seq (Pattern.isAscii_oneOf ?_) (List.forall_mem_singleton.2 rfl)
    refine List.forall_mem_map.2 fun word spelled => Pattern.isAscii_text fun c member => ?_
    obtain ⟨l, m, rfl⟩ := Pattern.spelling_eq spelled
    have graphic := isGraphic_iff.1 (Mnemonic.name_graphic l m c member)
    omega
  | register c =>
    rw [Pattern.IsAscii]
    cases c <;> decide +kernel
  | stray => exact absurd rfl visible
  | _ =>
    rw [Pattern.IsAscii]
    decide +kernel

theorem run_visible : Scan.run (fun c => !isSpace c) (byteChars cs) =
    (utf8 (cs.take (Scan.run (fun c => !isSpace c) cs))).length := by
  have cons {c : Char} {cs : List Char} (visible : isSpace c = false) :
      Scan.run (fun c => !isSpace c) (c :: cs) = Scan.run (fun c => !isSpace c) cs + 1 := by
    simp [Scan.run, visible]
  induction cs with
  | nil => rfl
  | cons c cs ih =>
    rw [← byteChars_length] at ih ⊢
    by_cases ascii : c.toNat < 128
    · cases visible : isSpace c with
      | true =>
        have stop (cs : List Char) : Scan.run (fun c => !isSpace c) (c :: cs) = 0 := by
          simp [Scan.run, visible]
        rw [byteChars_cons_ascii ascii, stop, stop]
        rfl
      | false => rw [byteChars_cons_ascii ascii, cons visible, cons visible, List.take_succ_cons,
          byteChars_cons_ascii ascii, List.length_cons, ih]
    · have visible {c : Char} (other : ¬ c.toNat < 128) : isSpace c = false :=
        Bool.eq_false_iff.2 fun space => other (isSpace_ascii space)
      obtain ⟨d, ds, bytes, others⟩ := byteChars_cons_other ascii
      rw [cons (visible ascii), List.take_succ_cons, bytes, bytes, List.length_append, ← ih,
        Scan.run, List.takeWhile_append_of_pos, List.length_append, ← Scan.run]
      intro b member
      rw [visible (others b member), Bool.not_false]

theorem measure_byteChars (k : TokenKind) (cs : List Char) :
    k.measure (byteChars cs) = (k.measure cs).map fun n => (utf8 (cs.take n)).length := by
  by_cases visible : k = .stray
  · subst visible
    rw [measure, measure, run_visible]
    by_cases begun : Scan.run (fun c => !isSpace c) cs = 0
    · rw [begun]
      rfl
    · have taken : cs.take (Scan.run (fun c => !isSpace c) cs) ≠ [] := by
        intro empty
        rcases List.take_eq_nil_iff.1 empty with zero | rfl
        · exact begun zero
        · exact begun rfl
      have bytes := mt List.length_eq_zero_iff.1 (utf8_ne taken)
      rw [Scan.nonempty, Scan.nonempty, if_neg begun, if_neg bytes]
      rfl
  · have plain := isAscii_pattern visible
    have counted : k.measure (byteChars cs) = k.measure cs := by
      rw [← length?_pattern, ← length?_pattern, Pattern.length?, Pattern.length?,
        Pattern.lengths_byteChars plain]
    rw [counted, ← length?_pattern]
    cases found : k.pattern.length? cs with
    | none => rfl
    | some n =>
      obtain ⟨short, whole⟩ := Pattern.length?_matches found
      rw [Option.map_some, ← byteChars_length, byteChars_ascii (whole.ascii plain),
        List.length_take_of_le short]

end TokenKind

end Legv8
