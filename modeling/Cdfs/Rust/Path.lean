/-
Joining paths. `Path::join` is associative and the empty path is its
left identity, so that a list of paths has one join however it is
bracketed (`joinAll`, `joinAll_append`). The empty path is no right
identity: joined to a path it leaves a separator at its end.

What a join consists of are its `segments`, the texts between the
separators. They are those of the paths that were joined
(`segments_joinAll`), so that a path says how many texts without a
separator it was made of, and which.
-/
import Cdfs.Rust.Str
import Mathlib.Data.List.Flatten

namespace Rust

-- ================================================== bytes of characters

/-- The byte of an ASCII character occurs in that character's encoding
only. -/
theorem ascii_mem_utf8EncodeChar {c d : Char} (hd : d.val.toNat < 0x80)
    (h : UInt8.ofNat d.val.toNat ∈ String.utf8EncodeChar c) : c = d := by
  have hbyte : (UInt8.ofNat d.val.toNat).toNat = d.val.toNat :=
    UInt8.toNat_ofNat_of_lt' (by change _ < 256; omega)
  have hlead : ∀ n k : Nat, n < k → k ≤ 0x40 → ∀ base : Nat,
      0x80 ≤ base → base + k ≤ 256 →
      UInt8.ofNat d.val.toNat ≠ UInt8.ofNat (n + base) := by
    intro n k hn hk base hbase hfit heq
    have hval := congrArg UInt8.toNat heq
    rw [hbyte, UInt8.toNat_ofNat_of_lt' (by change _ < 256; omega)] at hval
    omega
  have hmod : ∀ n k : Nat, 0 < k → n % k < k := fun n k hk =>
    Nat.mod_lt n hk
  unfold String.utf8EncodeChar at h
  dsimp only at h
  split at h
  · rename_i hle
    rw [List.mem_singleton] at h
    have hval := congrArg UInt8.toNat h
    rw [hbyte, UInt8.toNat_ofNat_of_lt' (by change _ < 256; omega)] at hval
    exact Char.ext (UInt32.toNat_inj.mp hval.symm)
  · exfalso
    split at h
    · simp only [List.mem_cons, List.not_mem_nil, or_false] at h
      rcases h with h | h
      · exact hlead _ _ (hmod _ 0x20 (by decide)) (by decide) 0xc0
          (by decide) (by decide) h
      · exact hlead _ _ (hmod _ 0x40 (by decide)) (by decide) 0x80
          (by decide) (by decide) h
    · split at h
      · simp only [List.mem_cons, List.not_mem_nil, or_false] at h
        rcases h with h | h | h
        · exact hlead _ _ (hmod _ 0x10 (by decide)) (by decide) 0xe0
            (by decide) (by decide) h
        · exact hlead _ _ (hmod _ 0x40 (by decide)) (by decide) 0x80
            (by decide) (by decide) h
        · exact hlead _ _ (hmod _ 0x40 (by decide)) (by decide) 0x80
            (by decide) (by decide) h
      · simp only [List.mem_cons, List.not_mem_nil, or_false] at h
        rcases h with h | h | h | h
        · exact hlead _ _ (hmod _ 0x08 (by decide)) (by decide) 0xf0
            (by decide) (by decide) h
        · exact hlead _ _ (hmod _ 0x40 (by decide)) (by decide) 0x80
            (by decide) (by decide) h
        · exact hlead _ _ (hmod _ 0x40 (by decide)) (by decide) 0x80
            (by decide) (by decide) h
        · exact hlead _ _ (hmod _ 0x40 (by decide)) (by decide) 0x80
            (by decide) (by decide) h

theorem asBytes_eq_flatMap (s : String) :
    asBytes s = s.toList.flatMap String.utf8EncodeChar := by
  unfold asBytes
  rw [← String.utf8Encode_toList, List.utf8Encode, List.data_toByteArray]

/-- A text has the byte of an ASCII character exactly when it has the
character. -/
theorem ascii_mem_asBytes {s : String} {d : Char} (hd : d.val.toNat < 0x80) :
    UInt8.ofNat d.val.toNat ∈ asBytes s ↔ d ∈ s.toList := by
  rw [asBytes_eq_flatMap, List.mem_flatMap]
  constructor
  · intro ⟨c, hc, hbyte⟩
    rw [← ascii_mem_utf8EncodeChar hd hbyte]
    exact hc
  · intro h
    refine ⟨d, h, ?_⟩
    unfold String.utf8EncodeChar
    dsimp only
    rw [if_pos (by omega)]
    exact List.mem_singleton_self _

theorem slash_mem_asBytes {s : String} :
    (0x2F : UInt8) ∈ asBytes s ↔ '/' ∈ s.toList :=
  ascii_mem_asBytes (d := '/') (by decide)

theorem nul_mem_asBytes {s : String} :
    (0 : UInt8) ∈ asBytes s ↔ '\x00' ∈ s.toList :=
  ascii_mem_asBytes (d := '\x00') (by decide)

-- =============================================================== `join`

/-- An absolute path. -/
abbrev IsAbsolute (p : String) : Prop := p.toList.head? = some '/'

/-- What `join` puts between a path and a relative one. -/
def separator (acc : String) : String :=
  if acc.toList.getLast?.any (· != '/') then "/" else ""

theorem pathJoin_absolute (acc : String) {p : String}
    (h : IsAbsolute p) : pathJoin acc p = p := by
  unfold pathJoin
  rw [if_pos h]

theorem pathJoin_relative (acc : String) {p : String}
    (h : ¬ IsAbsolute p) :
    pathJoin acc p = acc ++ separator acc ++ p := by
  unfold pathJoin separator
  rw [if_neg h]
  split
  · rfl
  · rw [String.append_empty]

@[simp] theorem separator_empty : separator "" = "" := rfl

/-- The last character decides. -/
theorem separator_append (acc : String) {p : String} (h : p ≠ "") :
    separator (acc ++ p) = separator p := by
  have hne : p.toList ≠ [] := fun hnil => h (String.toList_eq_nil_iff.mp hnil)
  unfold separator
  rw [String.toList_append, List.getLast?_append_of_ne_nil _ hne]

theorem separator_self (acc : String) :
    separator (acc ++ separator acc) = "" := by
  by_cases h : acc.toList.getLast?.any (· != '/')
  · have hsep : separator acc = "/" := if_pos h
    rw [hsep, separator_append acc (by decide)]
    decide
  · have hsep : separator acc = "" := if_neg h
    rw [hsep, String.append_empty, hsep]

/-- The empty path is a left identity. -/
@[simp] theorem empty_pathJoin (p : String) : pathJoin "" p = p := by
  by_cases h : IsAbsolute p
  · exact pathJoin_absolute "" h
  · rw [pathJoin_relative "" h, separator_empty, String.empty_append,
      String.empty_append]

/-- A path that begins with a nonempty one begins as that does. -/
theorem isAbsolute_append {p : String} (q : String) (h : p ≠ "") :
    IsAbsolute (p ++ q) ↔ IsAbsolute p := by
  have hne : p.toList ≠ [] := fun hnil => h (String.toList_eq_nil_iff.mp hnil)
  unfold IsAbsolute
  rw [String.toList_append, List.head?_append_of_ne_nil _ hne]

theorem pathJoin_assoc (a p q : String) :
    pathJoin (pathJoin a p) q = pathJoin a (pathJoin p q) := by
  by_cases hq : IsAbsolute q
  · rw [pathJoin_absolute _ hq, pathJoin_absolute _ hq,
      pathJoin_absolute _ hq]
  · rw [pathJoin_relative _ hq, pathJoin_relative p hq]
    rcases eq_or_ne p "" with rfl | hp
    · have hempty : ¬ IsAbsolute "" := by decide
      rw [pathJoin_relative a hempty, String.append_empty,
        separator_self, String.append_empty, separator_empty,
        String.empty_append, String.empty_append,
        pathJoin_relative a hq]
    · by_cases hpabs : IsAbsolute p
      · have hpq : IsAbsolute (p ++ separator p ++ q) := by
          rw [String.append_assoc, isAbsolute_append _ hp]
          exact hpabs
        rw [pathJoin_absolute a hpabs, pathJoin_absolute a hpq]
      · have hpq : ¬ IsAbsolute (p ++ separator p ++ q) := by
          rw [String.append_assoc, isAbsolute_append _ hp]
          exact hpabs
        rw [pathJoin_relative a hpabs, pathJoin_relative a hpq,
          separator_append _ hp]
        simp only [String.append_assoc]

instance : Std.Associative pathJoin := ⟨pathJoin_assoc⟩

-- ================================================ the join of a list

/-- Paths joined from left to right. -/
def joinAll (ps : List String) : String := ps.foldl pathJoin ""

@[simp] theorem joinAll_nil : joinAll [] = "" := rfl

@[simp] theorem joinAll_singleton (p : String) : joinAll [p] = p :=
  empty_pathJoin p

theorem foldl_pathJoin {ps : List String} (h : ps ≠ []) (acc : String) :
    ps.foldl pathJoin acc = pathJoin acc (joinAll ps) := by
  match ps with
  | [] => exact absurd rfl h
  | p :: ps =>
      unfold joinAll
      rw [List.foldl_cons, List.foldl_cons, List.foldl_assoc,
        List.foldl_assoc, empty_pathJoin]

theorem joinAll_append (ps : List String) {qs : List String}
    (h : qs ≠ []) :
    joinAll (ps ++ qs) = pathJoin (joinAll ps) (joinAll qs) := by
  rw [joinAll, List.foldl_append, foldl_pathJoin h]
  rfl

theorem joinAll_cons (p : String) {ps : List String} (h : ps ≠ []) :
    joinAll (p :: ps) = pathJoin p (joinAll ps) := by
  have happ := joinAll_append [p] h
  rw [joinAll_singleton] at happ
  exact happ

/-- An empty path that another follows adds nothing. -/
theorem joinAll_filter {ps : List String} (h : ps.getLast? ≠ some "") :
    joinAll (ps.filter (· ≠ "")) = joinAll ps := by
  have hfold : ∀ (ps : List String) (acc : String),
      ps.getLast? ≠ some "" →
      (ps.filter (· ≠ "")).foldl pathJoin acc = ps.foldl pathJoin acc := by
    intro ps
    induction ps with
    | nil => exact fun _ _ => rfl
    | cons p ps ih =>
        intro acc h
        rcases eq_or_ne p "" with rfl | hp
        · match ps with
          | [] => exact absurd rfl h
          | q :: ps =>
              have hlast : (q :: ps).getLast? ≠ some "" := by
                rw [List.getLast?_cons_cons] at h
                exact h
              rw [List.filter_cons_of_neg (by simp), ih acc hlast,
                List.foldl_cons, List.foldl_cons, List.foldl_cons,
                pathJoin_assoc, empty_pathJoin]
        · rw [List.filter_cons_of_pos (by simp [hp]), List.foldl_cons,
            List.foldl_cons]
          refine ih _ fun hlast => h ?_
          rw [List.getLast?_cons, hlast]
          rfl
  exact hfold ps "" h

-- =============================================================== segments

/-- The texts between the separators of a path. -/
def segments (s : String) : List String :=
  ((s.toList.splitOn '/').filter (· ≠ [])).map String.ofList

@[simp] theorem segments_empty : segments "" = [] := rfl

@[simp] theorem segments_slash : segments "/" = [] := by decide

theorem segments_eq_self {s : String} (hne : s ≠ "")
    (h : '/' ∉ s.toList) : segments s = [s] := by
  have hnil : s.toList ≠ [] :=
    fun hnil => hne (String.toList_eq_nil_iff.mp hnil)
  unfold segments
  rw [List.splitOn_eq_singleton h, List.filter_cons_of_pos (by simp [hne]),
    List.filter_nil, List.map_singleton, String.ofList_toList]

/-- A path of separators only has no segments, and no other path has
none. -/
theorem segments_eq_nil_iff {s : String} :
    segments s = [] ↔ ∀ c ∈ s.toList, c = '/' := by
  unfold segments
  rw [List.map_eq_nil_iff, List.filter_eq_nil_iff]
  simp only [decide_eq_true_eq, not_not]
  induction s.toList with
  | nil => simp
  | cons c cs ih =>
      rw [List.splitOn_cons_eq_if_modifyHead, List.forall_mem_cons, ← ih]
      by_cases hc : c = '/'
      · rw [if_pos (beq_iff_eq.mpr hc), List.forall_mem_cons]
        simp [hc]
      · -- a text begins here
        rw [if_neg (by simpa using hc)]
        obtain ⟨text, texts, hsplit⟩ :=
          List.exists_cons_of_ne_nil (List.splitOn_ne_nil '/' cs)
        rw [hsplit, List.modifyHead_cons, List.forall_mem_cons]
        simp [hc]

/-- Of roots and texts the texts are left. -/
theorem flatMap_segments {ps : List String}
    (h : ∀ p ∈ ps, p = "/" ∨ '/' ∉ p.toList) :
    ps.flatMap segments = ps.filter fun p => p ≠ "" ∧ p ≠ "/" := by
  induction ps with
  | nil => rfl
  | cons p ps ih =>
      rw [List.flatMap_cons, ih fun q hq => h q (List.mem_cons_of_mem p hq)]
      rcases h p List.mem_cons_self with rfl | hslash
      · rw [segments_slash, List.filter_cons_of_neg (by decide)]
        rfl
      · have hp : p ≠ "/" := by
          rintro rfl
          exact hslash (by decide)
        rcases eq_or_ne p "" with rfl | hne
        · rw [segments_empty, List.filter_cons_of_neg (by decide)]
          rfl
        · rw [segments_eq_self hne hslash,
            List.filter_cons_of_pos (by simpa using ⟨hne, hp⟩)]
          rfl

theorem segments_slash_append (s t : String) :
    segments (s ++ "/" ++ t) = segments s ++ segments t := by
  have hlist : (s ++ "/" ++ t).toList = s.toList ++ '/' :: t.toList := by
    simp
  unfold segments
  rw [hlist, List.splitOn_append_cons_self, List.filter_append,
    List.map_append]

/-- A join has the segments of both paths. -/
theorem segments_pathJoin (acc : String) {p : String}
    (h : ¬ IsAbsolute p) :
    segments (pathJoin acc p) = segments acc ++ segments p := by
  rw [pathJoin_relative acc h]
  by_cases hany : acc.toList.getLast?.any (· != '/')
  · have hsep : separator acc = "/" := if_pos hany
    rw [hsep, segments_slash_append]
  · have hsep : separator acc = "" := if_neg hany
    rw [hsep, String.append_empty]
    rcases eq_or_ne acc "" with rfl | hne
    · rw [String.empty_append]
      rfl
    · -- the path ends with a separator already
      obtain ⟨init, c, hc⟩ : ∃ init c, acc.toList = init ++ [c] := by
        have hnil : acc.toList ≠ [] :=
          fun hnil => hne (String.toList_eq_nil_iff.mp hnil)
        exact ⟨_, _, (List.dropLast_append_getLast hnil).symm⟩
      have hslash : c = '/' := by
        rw [hc, List.getLast?_concat] at hany
        simpa using hany
      have hacc : acc = String.ofList init ++ "/" ++ "" := by
        rw [← String.ofList_toList (s := acc), hc, hslash]
        simp
      have hsplit := segments_slash_append (String.ofList init) p
      have hself := segments_slash_append (String.ofList init) ""
      rw [← hacc] at hself
      rw [String.append_empty] at hacc
      rw [hself, segments_empty, List.append_nil, ← hsplit, ← hacc]

/-- A join consists of what was joined, if nothing absolute comes
late. -/
theorem segments_joinAll {ps : List String}
    (h : ∀ p ∈ ps.tail, ¬ IsAbsolute p) :
    segments (joinAll ps) = ps.flatMap segments := by
  have hfold : ∀ (ps : List String) (acc : String),
      (∀ p ∈ ps, ¬ IsAbsolute p) →
      segments (ps.foldl pathJoin acc)
        = segments acc ++ ps.flatMap segments := by
    intro ps
    induction ps with
    | nil => simp
    | cons p ps ih =>
        intro acc h
        rw [List.foldl_cons, ih _ fun q hq => h q (List.mem_cons_of_mem p hq),
          segments_pathJoin acc (h p List.mem_cons_self),
          List.flatMap_cons, List.append_assoc]
  match ps with
  | [] => rfl
  | p :: ps =>
      rw [joinAll, List.foldl_cons, empty_pathJoin, hfold ps p h,
        List.flatMap_cons]

theorem not_isAbsolute {p : String} (h : '/' ∉ p.toList) :
    ¬ IsAbsolute p := fun habs => h (List.mem_of_head? habs)

/-- A text without a separator is separated from what follows. -/
theorem separator_text {s : String} (hne : s ≠ "")
    (h : '/' ∉ s.toList) : separator s = "/" := by
  have hnil : s.toList ≠ [] :=
    fun hnil => hne (String.toList_eq_nil_iff.mp hnil)
  have hlast : s.toList.getLast hnil ≠ '/' :=
    fun heq => h (heq ▸ List.getLast_mem hnil)
  unfold separator
  rw [List.getLast?_eq_some_getLast hnil]
  simp [hlast]

/-- The join of relative paths is relative. -/
theorem joinAll_relative {ps : List String}
    (h : ∀ p ∈ ps, ¬ IsAbsolute p) : ¬ IsAbsolute (joinAll ps) := by
  induction ps with
  | nil => decide
  | cons p ps ih =>
      have hp := h p List.mem_cons_self
      have hps := ih fun q hq => h q (List.mem_cons_of_mem p hq)
      rcases eq_or_ne ps [] with rfl | hne
      · rw [joinAll_singleton]
        exact hp
      · rw [joinAll_cons p hne]
        rcases eq_or_ne p "" with rfl | hpne
        · rw [empty_pathJoin]
          exact hps
        · rw [pathJoin_relative p hps, String.append_assoc,
            isAbsolute_append _ hpne]
          exact hp

/-- Joining texts puts separators between them. -/
theorem joinAll_eq_intercalate {names : List String}
    (h : ∀ s ∈ names, s ≠ "" ∧ '/' ∉ s.toList) :
    joinAll names = "/".intercalate names := by
  induction names with
  | nil => rfl
  | cons s names ih =>
      obtain ⟨hs, hslash⟩ := h s List.mem_cons_self
      have hnames : ∀ t ∈ names, t ≠ "" ∧ '/' ∉ t.toList :=
        fun t ht => h t (List.mem_cons_of_mem s ht)
      rcases eq_or_ne names [] with rfl | hne
      · rw [joinAll_singleton, String.intercalate_singleton]
      · have hrel : ¬ IsAbsolute (joinAll names) :=
          joinAll_relative fun t ht => not_isAbsolute (hnames t ht).2
        rw [joinAll_cons s hne, pathJoin_relative s hrel,
          separator_text hs hslash, ih hnames,
          String.intercalate_cons_of_ne_nil hne]

/-- After a root they follow it directly. -/
theorem joinAll_slash {ps : List String}
    (h : ∀ p ∈ ps, ¬ IsAbsolute p) :
    joinAll ("/" :: ps) = "/" ++ joinAll ps := by
  rcases eq_or_ne ps [] with rfl | hne
  · rw [joinAll_singleton, joinAll_nil, String.append_empty]
  · rw [joinAll_cons "/" hne, pathJoin_relative "/" (joinAll_relative h)]
    rfl

/-- Ending with an empty path leaves a separator at the end. -/
theorem joinAll_concat_empty (ps : List String) :
    joinAll (ps ++ [""]) = ""
      ∨ (joinAll (ps ++ [""])).toList.getLast? = some '/' := by
  rw [joinAll_append ps (List.cons_ne_nil _ _), joinAll_singleton,
    pathJoin_relative _ (by decide), String.append_empty]
  by_cases hany : (joinAll ps).toList.getLast?.any (· != '/')
  · right
    have hsep : separator (joinAll ps) = "/" := if_pos hany
    rw [hsep]
    simp
  · have hsep : separator (joinAll ps) = "" := if_neg hany
    rw [hsep, String.append_empty]
    cases hlast : (joinAll ps).toList.getLast? with
    | none =>
        left
        exact String.toList_eq_nil_iff.mp (List.getLast?_eq_none_iff.mp hlast)
    | some c =>
        right
        rw [hlast] at hany
        simp only [Option.any_some, bne_iff_ne, ne_eq, not_not] at hany
        rw [hany]

end Rust
