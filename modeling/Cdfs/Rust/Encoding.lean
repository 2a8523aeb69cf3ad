/-
Decoding text that may be anything: UTF-16 and UTF-8 as the Encoding
standard has them, and `UTF_16BE.decode` over the two, which looks for a
byte order mark first.

Nothing is ever refused. What is malformed becomes a replacement
character, and the result says whether there was any. Characters of the
basic multilingual plane that do not begin like a byte order mark are
decoded to themselves (`utf16beDecode_ucs2`), and those that do begin like
one never are (`utf16beDecode_marked`).
-/
import Cdfs.Rust.Str

namespace Rust

-- ========================================================= what is decoded

/-- The characters, and whether any stands for malformed input. -/
abbrev Decoded := List Char × Bool

namespace Decoded

/-- A character in front. -/
def cons (c : Char) (d : Decoded) : Decoded := (c :: d.1, d.2)

/-- A replacement character in front. -/
def malformed (d : Decoded) : Decoded := ('\ufffd' :: d.1, true)

theorem length_cons (c : Char) (d : Decoded) :
    (d.cons c).1.length = d.1.length + 1 := rfl

theorem length_malformed (d : Decoded) :
    d.malformed.1.length = d.1.length + 1 := rfl

end Decoded

-- ================================================================= UTF-16

/-- The two bytes of a unit, the high one first. -/
def bigEndian (x y : UInt8) : Nat := x.toNat * 0x100 + y.toNat

/-- The low one first. -/
def littleEndian (x y : UInt8) : Nat := bigEndian y x

/-- The decoder of UTF-16. A surrogate without its other half, and half a
unit at the end, are malformed. -/
def decodeUtf16 (unit : UInt8 → UInt8 → Nat) : List UInt8 → Decoded
  | [] => ([], false)
  | [_] => .malformed ([], false)
  | x :: y :: rest =>
      let behind := decodeUtf16 unit rest
      if 0xD800 ≤ unit x y ∧ unit x y < 0xDC00 then
        match rest with
        | z :: w :: rest' =>
            if 0xDC00 ≤ unit z w ∧ unit z w < 0xE000 then
              .cons (Char.ofNat (0x10000 + (unit x y - 0xD800) * 0x400
                + (unit z w - 0xDC00))) (decodeUtf16 unit rest')
            else .malformed behind
        | _ => .malformed ([], false)
      else if 0xDC00 ≤ unit x y ∧ unit x y < 0xE000 then .malformed behind
      else .cons (Char.ofNat (unit x y)) behind

-- ================================================================== UTF-8

/-- A sequence whose first bytes have been read: how many it still needs,
the bounds of the next one, and the bits so far. -/
structure Sequence where
  needed : Nat
  lower : UInt8
  upper : UInt8
  bits : Nat

/-- What a byte is that no sequence is waiting for. -/
inductive Lead where
  | char (c : Char)
  | sequence (p : Sequence)
  | malformed

def lead (x : UInt8) : Lead :=
  if x < 0x80 then .char (Char.ofNat x.toNat)
  else if 0xC2 ≤ x ∧ x ≤ 0xDF then .sequence ⟨1, 0x80, 0xBF, x.toNat % 0x20⟩
  else if 0xE0 ≤ x ∧ x ≤ 0xEF then
    .sequence ⟨2, if x = 0xE0 then 0xA0 else 0x80,
      if x = 0xED then 0x9F else 0xBF, x.toNat % 0x10⟩
  else if 0xF0 ≤ x ∧ x ≤ 0xF4 then
    .sequence ⟨3, if x = 0xF0 then 0x90 else 0x80,
      if x = 0xF4 then 0x8F else 0xBF, x.toNat % 8⟩
  else .malformed

/-- The decoder of UTF-8. A byte that does not continue a sequence ends it
and is looked at again as the first of another. -/
def decodeUtf8 : Option Sequence → List UInt8 → Decoded
  | none, [] => ([], false)
  | some _, [] => .malformed ([], false)
  | pending, x :: rest =>
      let first := match lead x with
        | .char c => .cons c (decodeUtf8 none rest)
        | .sequence p => decodeUtf8 (some p) rest
        | .malformed => .malformed (decodeUtf8 none rest)
      match pending with
      | none => first
      | some p =>
          if p.lower ≤ x ∧ x ≤ p.upper then
            let bits := p.bits * 0x40 + x.toNat % 0x40
            if p.needed = 1 then .cons (Char.ofNat bits) (decodeUtf8 none rest)
            else decodeUtf8 (some ⟨p.needed - 1, 0x80, 0xBF, bits⟩) rest
          else .malformed first

example : decodeUtf8 none [0x61, 0xC3, 0xA9, 0xE2, 0x82, 0x62, 0xFF]
    = (['a', 'é', '\ufffd', 'b', '\ufffd'], true) := by decide

/-- A code that is no surrogate is that of its character, and any other
has the character 0. -/
theorem toNat_ofNat_le (n : Nat) : (Char.ofNat n).toNat ≤ n := by
  by_cases h : n.isValidChar
  · rw [Char.ofNat, dif_pos h]
    exact Nat.le_refl n
  · rw [Char.ofNat, dif_neg h]
    exact Nat.zero_le n

/-- The bytes that make up a sequence. -/
def Multibyte (x : UInt8) : Prop := 0x80 ≤ x.toNat ∧ x.toNat < 0xFF

theorem Multibyte.of_bounds {x l u : UInt8} (hx : l ≤ x ∧ x ≤ u)
    (hl : 0x80 ≤ l.toNat) (hu : u.toNat < 0xFF) : Multibyte x :=
  ⟨Nat.le_trans hl (UInt8.le_iff_toNat_le.mp hx.1),
    Nat.lt_of_le_of_lt (UInt8.le_iff_toNat_le.mp hx.2) hu⟩

/-- The bytes that a sequence waits for are such bytes. -/
structure Sequence.Waits (p : Sequence) : Prop where
  needed : 0 < p.needed
  lower : 0x80 ≤ p.lower.toNat
  upper : p.upper.toNat < 0xFF

theorem Sequence.Waits.of {n : Nat} {l u : UInt8} (bits : Nat) (hn : 0 < n)
    (hl : 0x80 ≤ l.toNat) (hu : u.toNat < 0xFF) :
    Sequence.Waits ⟨n, l, u, bits⟩ :=
  ⟨hn, hl, hu⟩

/-- A first byte of a sequence is one as well, and with one more byte the
sequence is no character that needs three. -/
theorem lead_sequence {x : UInt8} {p : Sequence}
    (h : lead x = .sequence p) :
    Multibyte x ∧ p.Waits ∧ (p.needed = 1 → p.bits < 0x20) := by
  unfold lead at h
  split at h
  · cases h
  · split at h
    · rename_i hx
      injection h with h
      subst h
      exact ⟨.of_bounds hx (by decide) (by decide),
        .of _ (by decide) (by decide) (by decide),
        fun _ => Nat.mod_lt _ (by decide)⟩
    · split at h
      · rename_i hx
        injection h with h
        subst h
        refine ⟨.of_bounds hx (by decide) (by decide),
          .of _ (by decide) ?_ ?_, fun h => nomatch h⟩
        · split <;> decide
        · split <;> decide
      · split at h
        · rename_i hx
          injection h with h
          subst h
          refine ⟨.of_bounds hx (by decide) (by decide),
            .of _ (by decide) ?_ ?_, fun h => nomatch h⟩
          · split <;> decide
          · split <;> decide
        · cases h

/-- A byte that is a character by itself is ASCII. -/
theorem lead_char {x : UInt8} {c : Char} (h : lead x = .char c) :
    c.toNat < 0x80 := by
  unfold lead at h
  split at h
  · rename_i hx
    injection h with h
    rw [← h]
    exact Nat.lt_of_le_of_lt (toNat_ofNat_le _) (UInt8.lt_iff_toNat_lt.mp hx)
  · split at h
    · cases h
    · split at h
      · cases h
      · split at h
        · cases h
        · cases h

/-- A character that a sequence waits for comes from the bytes that it
needs. -/
theorem decodeUtf8_sequence (bytes : List UInt8) :
    ∀ (p : Sequence) {c : Char} {t : List Char}, p.Waits →
      c ≠ '\ufffd' → (decodeUtf8 (some p) bytes).1 = c :: t →
      ∃ seq rest, bytes = seq ++ rest ∧ seq.length = p.needed
        ∧ (∀ x ∈ seq, Multibyte x)
        ∧ c.toNat < (p.bits + 1) * 0x40 ^ p.needed
        ∧ (decodeUtf8 none rest).1 = t := by
  induction bytes with
  | nil =>
      intro p c t _ hc h
      injection h with h _
      exact absurd h.symm hc
  | cons x bytes ih =>
      intro p c t hwaits hc h
      unfold decodeUtf8 at h
      dsimp only at h
      split at h
      · rename_i hx
        have hbyte : Multibyte x :=
          .of_bounds hx hwaits.lower hwaits.upper
        split at h
        · -- the last byte
          rename_i hone
          injection h with hchar htail
          refine ⟨[x], bytes, rfl, hone.symm,
            List.forall_mem_singleton.mpr hbyte, ?_, htail⟩
          have hle := toNat_ofNat_le (p.bits * 0x40 + x.toNat % 0x40)
          rw [hchar] at hle
          rw [hone]
          omega
        · rename_i hone
          have hneeded := hwaits.needed
          obtain ⟨seq, rest, hbytes, hlen, hall, hbound, htail⟩ := ih
            ⟨p.needed - 1, 0x80, 0xBF, p.bits * 0x40 + x.toNat % 0x40⟩
            (.of _ (by omega) (by decide) (by decide)) hc h
          dsimp only at hlen hbound
          refine ⟨x :: seq, rest, by rw [hbytes, List.cons_append],
            by rw [List.length_cons, hlen]; omega,
            List.forall_mem_cons.mpr ⟨hbyte, hall⟩, ?_, htail⟩
          calc c.toNat
              < (p.bits * 0x40 + x.toNat % 0x40 + 1)
                * 0x40 ^ (p.needed - 1) := hbound
            _ ≤ ((p.bits + 1) * 0x40) * 0x40 ^ (p.needed - 1) :=
                Nat.mul_le_mul_right _ (by omega)
            _ = (p.bits + 1) * 0x40 ^ p.needed := by
                rw [Nat.mul_assoc, ← Nat.pow_succ', Nat.succ_eq_add_one,
                  Nat.sub_add_cancel hneeded]
      · injection h with h _
        exact absurd h.symm hc

/-- A character that needs three bytes or more comes from so many. -/
theorem decodeUtf8_wide {bytes : List UInt8} {c : Char} {t : List Char}
    (hc : c ≠ '\ufffd') (hwide : 0x800 ≤ c.toNat)
    (h : (decodeUtf8 none bytes).1 = c :: t) :
    ∃ seq rest, bytes = seq ++ rest ∧ 3 ≤ seq.length
      ∧ (∀ x ∈ seq, Multibyte x) ∧ (decodeUtf8 none rest).1 = t := by
  cases bytes with
  | nil => cases h
  | cons x bytes =>
      unfold decodeUtf8 at h
      dsimp only at h
      cases hlead : lead x with
      | char c' =>
          rw [hlead] at h
          injection h with h _
          have hascii := lead_char hlead
          rw [h] at hascii
          omega
      | sequence p =>
          rw [hlead] at h
          obtain ⟨hbyte, hwaits, hbits⟩ := lead_sequence hlead
          obtain ⟨seq, rest, hbytes, hlen, hall, hbound, htail⟩ :=
            decodeUtf8_sequence bytes p hwaits hc h
          refine ⟨x :: seq, rest, by rw [hbytes, List.cons_append], ?_,
            List.forall_mem_cons.mpr ⟨hbyte, hall⟩, htail⟩
          -- of two bytes it would not be so wide
          have hneeded := hwaits.needed
          rw [List.length_cons, hlen]
          by_contra hshort
          have hone : p.needed = 1 := by omega
          have hsmall := hbits hone
          rw [hone] at hbound
          omega
      | malformed =>
          rw [hlead] at h
          injection h with h _
          exact absurd h.symm hc

-- ===================================================== the byte order mark

/-- `UTF_16BE.decode`. A byte order mark in front selects the encoding and
is not part of the text. -/
def utf16beDecode (bytes : List UInt8) : String × Bool :=
  let (text, malformed) :=
    if bytes.take 3 = [0xEF, 0xBB, 0xBF] then decodeUtf8 none (bytes.drop 3)
    else if bytes.take 2 = [0xFE, 0xFF] then
      decodeUtf16 bigEndian (bytes.drop 2)
    else if bytes.take 2 = [0xFF, 0xFE] then
      decodeUtf16 littleEndian (bytes.drop 2)
    else decodeUtf16 bigEndian bytes
  (String.ofList text, malformed)

/-- The units of characters of the basic multilingual plane. -/
def ucs2Bytes (text : List Char) : List UInt8 :=
  text.flatMap fun c =>
    [UInt8.ofNat (c.toNat / 0x100), UInt8.ofNat (c.toNat % 0x100)]

/-- The units begin like a byte order mark: the first is the mark or the
mark with its bytes swapped, or the first two begin with the mark of
UTF-8. -/
def marked : List Char → Bool
  | [] => false
  | c :: text => c.toNat == 0xFEFF || c.toNat == 0xFFFE
      || c.toNat == 0xEFBB && text.head?.any (·.toNat / 0x100 == 0xBF)

-- ================================================ characters of one unit

/-- All of them are in the basic multilingual plane. -/
def OneUnit (text : List Char) : Prop := ∀ c ∈ text, c.toNat < 0x10000

instance (text : List Char) : Decidable (OneUnit text) :=
  List.decidableBAll (fun c : Char => c.toNat < 0x10000) text

theorem OneUnit.tail {c : Char} {text : List Char}
    (h : OneUnit (c :: text)) : OneUnit text :=
  fun d hd => h d (List.mem_cons_of_mem c hd)

theorem ucs2Bytes_cons (c : Char) (text : List Char) :
    ucs2Bytes (c :: text)
      = UInt8.ofNat (c.toNat / 0x100) :: UInt8.ofNat (c.toNat % 0x100)
        :: ucs2Bytes text := by
  unfold ucs2Bytes
  rw [List.flatMap_cons]
  rfl

theorem length_ucs2Bytes (text : List Char) :
    (ucs2Bytes text).length = 2 * text.length := by
  induction text with
  | nil => rfl
  | cons c text ih =>
      rw [ucs2Bytes_cons, List.length_cons, List.length_cons, ih,
        List.length_cons]
      omega

theorem toNat_high {c : Char} (h : c.toNat < 0x10000) :
    (UInt8.ofNat (c.toNat / 0x100)).toNat = c.toNat / 0x100 :=
  UInt8.toNat_ofNat_of_lt' (Nat.div_lt_of_lt_mul h)

theorem toNat_low (c : Char) :
    (UInt8.ofNat (c.toNat % 0x100)).toNat = c.toNat % 0x100 :=
  UInt8.toNat_ofNat_of_lt' (Nat.mod_lt _ (by decide))

/-- The unit of a character is its code, which is no surrogate. -/
theorem bigEndian_char {c : Char} (h : c.toNat < 0x10000) :
    bigEndian (UInt8.ofNat (c.toNat / 0x100))
      (UInt8.ofNat (c.toNat % 0x100)) = c.toNat := by
  unfold bigEndian
  rw [toNat_high h, toNat_low]
  omega

theorem decodeUtf16_ucs2 {text : List Char} (h : OneUnit text) :
    decodeUtf16 bigEndian (ucs2Bytes text) = (text, false) := by
  induction text with
  | nil => rfl
  | cons c text ih =>
      have hc := h c List.mem_cons_self
      have hvalid : c.toNat < 0xD800 ∨ 0xDFFF < c.toNat ∧ c.toNat < 0x110000 :=
        c.valid
      rw [ucs2Bytes_cons]
      unfold decodeUtf16
      rw [bigEndian_char hc, if_neg (by omega), if_neg (by omega),
        ih h.tail, Char.ofNat_toNat]
      rfl

/-- There is no more than a character for each unit. -/
theorem length_decodeUtf16 (unit : UInt8 → UInt8 → Nat)
    (bytes : List UInt8) :
    2 * (decodeUtf16 unit bytes).1.length ≤ bytes.length + 1 := by
  fun_induction decodeUtf16 unit bytes with
  | case1 => exact Nat.zero_le _
  | case2 => exact Nat.le_refl _
  | case3 x y _ z w rest _ _ ih =>
      -- a pair of surrogates is two units
      simp only [Decoded.length_cons, List.length_cons]
      omega
  | case4 x y _ z w rest _ behind ih | case6 x y rest behind _ _ ih =>
      simp only [Decoded.length_malformed, List.length_cons, behind] at ih ⊢
      omega
  | case5 x y rest _ _ _ =>
      simp only [Decoded.length_malformed, List.length_cons, List.length_nil]
      omega
  | case7 x y rest behind _ _ ih =>
      simp only [Decoded.length_cons, List.length_cons, behind]
      omega

theorem multibyte_mark :
    ∀ x ∈ ([0xEF, 0xBB, 0xBF] : List UInt8), Multibyte x := by
  intro x hx
  simp only [List.mem_cons, List.not_mem_nil, or_false] at hx
  rcases hx with rfl | rfl | rfl
  · exact ⟨by decide, by decide⟩
  · exact ⟨by decide, by decide⟩
  · exact ⟨by decide, by decide⟩

/-- Units that begin with bytes of sequences do not have themselves behind
those bytes: a character of them would be wide, so that it takes three
bytes where its unit is two, and they would never come to their end. -/
theorem decodeUtf8_ne_self {text : List Char} (h : OneUnit text) :
    ∀ (window rest : List UInt8) (more : List Char),
      1 < window.length → (∀ x ∈ window, Multibyte x) →
      ucs2Bytes text = window ++ rest →
      (decodeUtf8 none rest).1 ≠ text ++ more := by
  induction text with
  | nil =>
      intro window rest more hlen _ heq
      have hnil := congrArg List.length heq
      rw [List.length_append] at hnil
      change 0 = _ at hnil
      omega
  | cons c text ih =>
      intro window rest more hlen hall heq hdecode
      rw [ucs2Bytes_cons] at heq
      match window with
      | [] | [_] => simp at hlen
      | x :: y :: window =>
          rw [List.cons_append, List.cons_append] at heq
          injection heq with hx heq
          injection heq with hy heq
          have hc := h c List.mem_cons_self
          have hhigh := hall x List.mem_cons_self
          unfold Multibyte at hhigh
          rw [← hx, toNat_high hc] at hhigh
          have hne : c ≠ '\ufffd' := by
            intro heq
            rw [heq] at hhigh
            exact absurd hhigh.2 (by decide)
          obtain ⟨seq, rest', hrest, hseq, hmulti, htail⟩ :=
            decodeUtf8_wide hne (by omega) hdecode
          refine ih h.tail (window ++ seq) rest' more ?_ ?_ ?_ htail
          · rw [List.length_append]
            omega
          · intro z hz
            rcases List.mem_append.mp hz with hz | hz
            · exact hall z (.tail x (.tail y hz))
            · exact hmulti z hz
          · rw [heq, hrest, List.append_assoc]

-- =================================================== the whole decoder

/-- The bytes of a character are those of its code. -/
theorem ucs2_unit {c : Char} (h : c.toNat < 0x10000) (x y : UInt8) :
    (UInt8.ofNat (c.toNat / 0x100) = x ∧ UInt8.ofNat (c.toNat % 0x100) = y)
      ↔ c.toNat = bigEndian x y := by
  have hx := x.toNat_lt
  have hy := y.toNat_lt
  rw [← UInt8.toNat_inj, ← UInt8.toNat_inj, toNat_high h, toNat_low]
  unfold bigEndian
  omega

theorem take_ucs2 {c : Char} (h : c.toNat < 0x10000) (text : List Char)
    (x y : UInt8) :
    (ucs2Bytes (c :: text)).take 2 = [x, y] ↔ c.toNat = bigEndian x y := by
  rw [ucs2Bytes_cons, ← ucs2_unit h]
  simp

theorem take_ucs2_three {c : Char} {text : List Char}
    (h : OneUnit (c :: text)) (x y z : UInt8) :
    (ucs2Bytes (c :: text)).take 3 = [x, y, z]
      ↔ c.toNat = bigEndian x y
        ∧ text.head?.any (·.toNat / 0x100 == z.toNat) = true := by
  rw [ucs2Bytes_cons, ← ucs2_unit (h c List.mem_cons_self)]
  cases text with
  | nil => simp [ucs2Bytes]
  | cons d text =>
      have hd := toNat_high (h d (List.mem_cons_of_mem c List.mem_cons_self))
      have hthird : UInt8.ofNat (d.toNat / 0x100) = z
          ↔ d.toNat / 0x100 = z.toNat := by
        rw [← UInt8.toNat_inj, hd]
      rw [ucs2Bytes_cons]
      simp only [List.take_succ_cons, List.take_zero, List.cons.injEq,
        and_true, hthird, List.head?_cons, Option.any_some, beq_iff_eq,
        and_assoc]

/-- Characters that do not begin like a byte order mark are decoded to
themselves. -/
theorem utf16beDecode_ucs2 {text : List Char} (h : OneUnit text)
    (hmark : marked text = false) :
    utf16beDecode (ucs2Bytes text) = (String.ofList text, false) := by
  have hplain := decodeUtf16_ucs2 h
  cases text with
  | nil => rfl
  | cons c text =>
      have hc := h c List.mem_cons_self
      unfold marked at hmark
      simp only [Bool.or_eq_false_iff, Bool.and_eq_false_iff,
        beq_eq_false_iff_ne, ne_eq] at hmark
      unfold utf16beDecode
      rw [if_neg, if_neg, if_neg, hplain]
      · rw [take_ucs2 hc]
        exact hmark.1.2
      · rw [take_ucs2 hc]
        exact hmark.1.1
      · rw [take_ucs2_three h]
        rintro ⟨hfirst, hsecond⟩
        rcases hmark.2 with hne | hnone
        · exact hne hfirst
        · exact Bool.false_ne_true (hnone.symm.trans hsecond)

/-- Characters that do are decoded to something else, whatever is behind
it. -/
theorem utf16beDecode_marked {text : List Char} (h : OneUnit text)
    (hmark : marked text = true) (more : List Char) :
    (utf16beDecode (ucs2Bytes text)).1 ≠ String.ofList (text ++ more) := by
  cases text with
  | nil => cases hmark
  | cons c text =>
      have hc := h c List.mem_cons_self
      have hlen := length_ucs2Bytes (c :: text)
      -- without the mark there is a unit less than there are characters
      have hfewer : ∀ unit, (decodeUtf16 unit
          ((ucs2Bytes (c :: text)).drop 2)).1 ≠ c :: text ++ more := by
        intro unit heq
        have hunits := length_decodeUtf16 unit
          ((ucs2Bytes (c :: text)).drop 2)
        rw [heq, List.length_drop, hlen, List.length_append,
          List.length_cons] at hunits
        omega
      unfold utf16beDecode
      intro heq
      have heq := String.ofList_injective heq
      split at heq
      · rename_i hutf8
        have hsplit : ucs2Bytes (c :: text) = [0xEF, 0xBB, 0xBF]
            ++ (ucs2Bytes (c :: text)).drop 3 := by
          rw [← hutf8, List.take_append_drop]
        exact decodeUtf8_ne_self h _ _ more (by decide) multibyte_mark hsplit
          heq
      · rename_i hutf8
        rw [take_ucs2_three h] at hutf8
        split at heq
        · exact hfewer _ heq
        · rename_i hbig
          rw [take_ucs2 hc] at hbig
          split at heq
          · exact hfewer _ heq
          · rename_i hlittle
            rw [take_ucs2 hc] at hlittle
            unfold marked at hmark
            simp only [Bool.or_eq_true, Bool.and_eq_true, beq_iff_eq]
              at hmark
            rcases hmark with (hmark | hmark) | hmark
            · exact hbig hmark
            · exact hlittle hmark
            · exact hutf8 hmark

end Rust
