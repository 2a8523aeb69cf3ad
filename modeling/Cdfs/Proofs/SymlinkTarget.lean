/-
The target of a symbolic link, decoded and as it was recorded.

What `read_entry_at` computes is the join of the records' texts. The
flag that says that a name goes on in the next record is decoded and not
looked at, so the pieces of a name are joined like components, with a
`/` between them. The segments of the join (`segments_joinAll`) are then
the pieces, and they are the components exactly when no name is cut
(`symlinkTarget_eq_path_iff`). A cut inside a character loses text
besides: the pieces are no UTF-8, and decoding ends before them.
-/
import Cdfs.Proofs.EntryAt
import Cdfs.Proofs.Layout
import Cdfs.Proofs.LinkEncoding

namespace Cdfs

open Rust Parse

variable {σ : Type} {b : Build} {rd : ISO9660Reader σ} {src : Source}

-- ================================================================ bytes

/-- The records of a component, by the bytes they stand for. -/
def Spelling.parts (s : Spelling) : List (List UInt8) :=
  s.records.map (·.bytes)

theorem pieceRecords_bytes (pieces : List (List UInt8)) :
    (pieceRecords pieces).map (·.bytes) = pieces := by
  induction pieces with
  | nil => rfl
  | cons bs pieces ih =>
      match pieces with
      | [] => rfl
      | bs' :: pieces =>
          rw [pieceRecords, List.map_cons, ih]
          rfl

/-- Together they are the component's text. -/
theorem Spelling.flatten_parts (s : Spelling) :
    s.parts.flatten = asBytes s.component.text := by
  cases s with
  | current => rfl
  | parent => rfl
  | name n pieces whole =>
      unfold parts records
      rw [pieceRecords_bytes]
      exact whole

theorem Spelling.not_slash_mem (s : Spelling) {bs : List UInt8}
    (h : bs ∈ s.parts) : (0x2F : UInt8) ∉ bs := by
  intro hslash
  have hmem := List.mem_flatten.mpr ⟨bs, h, hslash⟩
  rw [s.flatten_parts, slash_mem_asBytes] at hmem
  exact s.component.text_ok.2 hmem

/-- The parts that are not empty. -/
def Spelling.pieces (s : Spelling) : List (List UInt8) :=
  s.parts.filter (· ≠ [])

theorem flatten_filter_ne_nil (bss : List (List UInt8)) :
    (bss.filter (· ≠ [])).flatten = bss.flatten := by
  induction bss with
  | nil => rfl
  | cons bs bss ih =>
      rcases eq_or_ne bs [] with rfl | hbs
      · rw [List.filter_cons_of_neg (by simp), ih]
        rfl
      · rw [List.filter_cons_of_pos (by simpa using hbs),
          List.flatten_cons, List.flatten_cons, ih]

theorem Spelling.flatten_pieces (s : Spelling) :
    s.pieces.flatten = asBytes s.component.text :=
  (flatten_filter_ne_nil _).trans s.flatten_parts

theorem Spelling.pieces_ne_nil (s : Spelling) : s.pieces ≠ [] := by
  intro h
  have hflat := s.flatten_pieces
  rw [h, List.flatten_nil, eq_comm, asBytes_eq_nil] at hflat
  exact s.component.text_ok.1 hflat

-- ==================================================== targets not split

/-- The component is in one record, apart from empty ones. -/
def Spelling.Unsplit : Spelling → Prop
  | name _ pieces _ => (pieces.filter (· ≠ [])).length = 1
  | _ => True

/-- Its last record is not an empty one. -/
def Spelling.EndsInText : Spelling → Prop
  | name _ pieces _ => pieces.getLast? ≠ some []
  | _ => True

/-- There is something to link to, no name is in more than one record,
and the last one does not end with an empty one. -/
structure LinkEncoding.Unsplit (enc : LinkEncoding) : Prop where
  nonempty : enc.root = true ∨ enc.spellings ≠ []
  unsplit : ∀ s ∈ enc.spellings, s.Unsplit
  endsInText : ∀ s, enc.spellings.getLast? = some s → s.EndsInText

theorem Spelling.unsplit_iff (s : Spelling) :
    s.Unsplit ↔ s.pieces = [asBytes s.component.text] := by
  have hlen : s.Unsplit ↔ s.pieces.length = 1 := by
    cases s with
    | current => exact ⟨fun _ => rfl, fun _ => trivial⟩
    | parent => exact ⟨fun _ => rfl, fun _ => trivial⟩
    | name n pieces whole =>
        unfold Spelling.pieces parts records
        rw [pieceRecords_bytes]
        rfl
  rw [hlen, List.length_eq_one_iff]
  have hflat := s.flatten_pieces
  constructor
  · rintro ⟨bs, hbs⟩
    rw [hbs, List.flatten_singleton] at hflat
    rw [hbs, hflat]
  · intro h
    exact ⟨_, h⟩

theorem Spelling.endsInText_iff (s : Spelling) :
    s.EndsInText ↔ s.parts.getLast? ≠ some [] := by
  cases s with
  | current => exact ⟨fun _ => by decide, fun _ => trivial⟩
  | parent => exact ⟨fun _ => by decide, fun _ => trivial⟩
  | name n pieces whole =>
      unfold parts records
      rw [pieceRecords_bytes]
      rfl

-- ============================================== the records of a target

/-- The records of a target, by the bytes they stand for. -/
def LinkEncoding.parts (enc : LinkEncoding) : List (List UInt8) :=
  (if enc.root then [asBytes "/"] else [])
    ++ enc.spellings.flatMap (·.parts)

theorem LinkEncoding.parts_eq (enc : LinkEncoding) :
    (enc.entries.flatMap (·.records)).map (·.bytes) = enc.parts := by
  rw [enc.distributed, List.map_append, List.map_flatMap]
  unfold parts
  cases enc.root with
  | true | false => rfl

/-- The texts of its components. -/
def LinkEncoding.names (enc : LinkEncoding) : List String :=
  enc.spellings.map (·.component.text)

theorem LinkEncoding.names_ok (enc : LinkEncoding) :
    ∀ s ∈ enc.names, s ≠ "" ∧ '/' ∉ s.toList := by
  intro s hs
  obtain ⟨spelling, -, rfl⟩ := List.mem_map.mp hs
  exact spelling.component.text_ok

/-- The target's path is a join too: of the root and the components. -/
theorem LinkTarget.path_eq (t : LinkTarget) :
    t.path = joinAll ((if t.root then ["/"] else [])
      ++ t.components.map (·.text)) := by
  have hok : ∀ s ∈ t.components.map (·.text), s ≠ "" ∧ '/' ∉ s.toList := by
    intro s hs
    obtain ⟨c, -, rfl⟩ := List.mem_map.mp hs
    exact c.text_ok
  unfold path
  rw [← joinAll_eq_intercalate hok]
  cases t.root with
  | true =>
      exact (joinAll_slash fun s hs => not_isAbsolute (hok s hs).2).symm
  | false => exact String.empty_append

theorem LinkEncoding.path_eq (enc : LinkEncoding) :
    enc.target.path
      = joinAll ((if enc.root then ["/"] else []) ++ enc.names) := by
  have hnames : enc.target.components.map (·.text) = enc.names := by
    unfold target names
    rw [List.map_map]
    rfl
  rw [LinkTarget.path_eq, hnames]
  rfl

/-- Its segments are the names. -/
theorem LinkEncoding.segments_path (enc : LinkEncoding) :
    segments enc.target.path = enc.names := by
  have hrel : ∀ s ∈ enc.names, ¬ IsAbsolute s := fun s hs =>
    not_isAbsolute (enc.names_ok s hs).2
  have hself : enc.names.flatMap segments = enc.names := by
    rw [flatMap_segments fun s hs => Or.inr (enc.names_ok s hs).2,
      List.filter_eq_self]
    intro s hs
    obtain ⟨hne, hslash⟩ := enc.names_ok s hs
    have hroot : s ≠ "/" := by
      rintro rfl
      exact hslash (by decide)
    simpa using ⟨hne, hroot⟩
  rw [enc.path_eq]
  by_cases hroot : enc.root = true
  · have htail : ∀ s ∈ ("/" :: enc.names).tail, ¬ IsAbsolute s := hrel
    rw [if_pos hroot, List.singleton_append, segments_joinAll htail,
      List.flatMap_cons, hself]
    rfl
  · rw [if_neg hroot, List.nil_append,
      segments_joinAll fun s hs => hrel s (List.mem_of_mem_tail hs),
      hself]

/-- A path to something does not end with a separator. -/
theorem LinkEncoding.getLast?_path (enc : LinkEncoding)
    (h : enc.spellings ≠ []) :
    enc.target.path ≠ "" ∧ enc.target.path.toList.getLast? ≠ some '/' := by
  have hne : enc.names ≠ [] := fun hnil => h (List.map_eq_nil_iff.mp hnil)
  obtain ⟨hlast, hslash⟩ := enc.names_ok _ (List.getLast_mem hne)
  have hlastNe : (enc.names.getLast hne).toList ≠ [] :=
    fun hnil => hlast (String.toList_eq_nil_iff.mp hnil)
  constructor
  · intro hempty
    have hseg := enc.segments_path
    rw [hempty] at hseg
    exact hne hseg.symm
  · rw [enc.path_eq, ← List.dropLast_append_getLast hne,
      ← List.append_assoc, joinAll_append _ (List.cons_ne_nil _ _),
      joinAll_singleton, pathJoin_relative _ (not_isAbsolute hslash),
      String.toList_append, List.getLast?_append_of_ne_nil _ hlastNe]
    intro hmem
    exact hslash (List.mem_of_getLast? hmem)

-- ======================================================= what is decoded

/-- What is read is among what is recorded. -/
theorem texts_sublist (rs : List LinkRecord) :
    ((texts rs).map asBytes).Sublist (rs.map (·.bytes)) := by
  induction rs with
  | nil => exact List.Sublist.slnil
  | cons r rs ih =>
      unfold texts
      cases htext : r.text with
      | none => exact List.nil_sublist _
      | some s =>
          have hbytes : asBytes s = r.bytes := fromUtf8_eq_some.mp htext
          dsimp only
          rw [List.map_cons, List.map_cons, hbytes]
          exact ih.cons_cons _

/-- It is all that is recorded if that is readable. -/
theorem texts_eq {rs : List LinkRecord}
    (h : ∀ r ∈ rs, ∃ s, asBytes s = r.bytes) :
    (texts rs).map asBytes = rs.map (·.bytes) := by
  induction rs with
  | nil => rfl
  | cons r rs ih =>
      obtain ⟨s, hs⟩ := h r List.mem_cons_self
      have htext : r.text = some s := fromUtf8_eq_some.mpr hs
      unfold texts
      rw [htext]
      dsimp only
      rw [List.map_cons, List.map_cons, hs,
        ih fun r' hr' => h r' (List.mem_cons_of_mem r hr')]

theorem LinkEncoding.texts_sublist (enc : LinkEncoding) :
    (enc.texts.map asBytes).Sublist enc.parts := by
  rw [← enc.parts_eq]
  unfold texts
  induction enc.entries with
  | nil => exact List.Sublist.slnil
  | cons e es ih =>
      rw [List.flatMap_cons, List.flatMap_cons, List.map_append,
        List.map_append]
      exact (Cdfs.texts_sublist e.records).append ih

theorem LinkEncoding.texts_eq (enc : LinkEncoding)
    (h : ∀ bs ∈ enc.parts, ∃ s, asBytes s = bs) :
    enc.texts.map asBytes = enc.parts := by
  rw [← enc.parts_eq] at h ⊢
  unfold texts
  generalize enc.entries = es at h ⊢
  induction es with
  | nil => rfl
  | cons e es ih =>
      rw [List.flatMap_cons, List.map_append] at h
      rw [List.flatMap_cons, List.flatMap_cons, List.map_append,
        List.map_append, ih fun bs hbs =>
          h bs (List.mem_append_right _ hbs)]
      congr 1
      refine Cdfs.texts_eq fun r hr => h r.bytes ?_
      exact List.mem_append_left _ (List.mem_map_of_mem hr)

/-- Only a root has the byte of `/`. -/
theorem LinkEncoding.parts_ok (enc : LinkEncoding) :
    (∀ bs ∈ enc.parts, bs = asBytes "/" ∨ (0x2F : UInt8) ∉ bs)
      ∧ ∀ bs ∈ enc.parts.tail, (0x2F : UInt8) ∉ bs := by
  have hrest : ∀ bs ∈ enc.spellings.flatMap (·.parts),
      (0x2F : UInt8) ∉ bs := by
    intro bs hbs
    obtain ⟨s, -, hbs⟩ := List.mem_flatMap.mp hbs
    exact s.not_slash_mem hbs
  unfold parts
  by_cases hroot : enc.root = true
  · rw [if_pos hroot, List.singleton_append]
    refine ⟨fun bs hbs => ?_, hrest⟩
    rcases List.mem_cons.mp hbs with hbs | hbs
    · exact Or.inl hbs
    · exact Or.inr (hrest bs hbs)
  · rw [if_neg hroot, List.nil_append]
    exact ⟨fun bs hbs => Or.inr (hrest bs hbs),
      fun bs hbs => hrest bs (List.mem_of_mem_tail hbs)⟩

/-- So the texts read are roots and texts without a separator, and a root
can only be the first. -/
theorem LinkEncoding.texts_ok (enc : LinkEncoding) :
    (∀ s ∈ enc.texts, s = "/" ∨ '/' ∉ s.toList)
      ∧ ∀ s ∈ enc.texts.tail, ¬ IsAbsolute s := by
  obtain ⟨hall, htail⟩ := enc.parts_ok
  have hsub := enc.texts_sublist
  constructor
  · intro s hs
    rcases hall (asBytes s) (hsub.subset (List.mem_map_of_mem hs)) with h | h
    · exact Or.inl (asBytes_injective h)
    · rw [slash_mem_asBytes] at h
      exact Or.inr h
  · intro s hs
    have hmem : asBytes s ∈ enc.parts.tail := by
      refine hsub.tail.subset ?_
      rw [← List.map_tail]
      exact List.mem_map_of_mem hs
    have h := htail _ hmem
    rw [slash_mem_asBytes] at h
    exact not_isAbsolute h

/-- What of the records is neither empty nor a root. -/
theorem LinkEncoding.parts_filter (enc : LinkEncoding) :
    enc.parts.filter (fun bs => bs ≠ [] ∧ bs ≠ asBytes "/")
      = enc.spellings.flatMap (·.pieces) := by
  have hrest : ∀ ss : List Spelling,
      (ss.flatMap (·.parts)).filter
          (fun bs => bs ≠ [] ∧ bs ≠ asBytes "/")
        = ss.flatMap (·.pieces) := by
    intro ss
    induction ss with
    | nil => rfl
    | cons s ss ih =>
        rw [List.flatMap_cons, List.flatMap_cons, List.filter_append, ih]
        congr 1
        refine List.filter_congr fun bs hbs => ?_
        have hslash : bs ≠ asBytes "/" := by
          rintro rfl
          exact s.not_slash_mem hbs (by decide)
        simp [hslash]
  unfold parts
  rw [List.filter_append, hrest]
  by_cases hroot : enc.root = true
  · rw [if_pos hroot, List.filter_cons_of_neg (by simp)]
    rfl
  · rw [if_neg hroot]
    rfl

-- ============================================================== counting

/-- A sublist of nonempty lists with as many elements in all is the whole
list. -/
theorem eq_of_flatten_length {α : Type} {xss yss : List (List α)}
    (h : xss.Sublist yss) (hne : ∀ ys ∈ yss, ys ≠ [])
    (hlen : xss.flatten.length = yss.flatten.length) : xss = yss := by
  induction h with
  | slnil => rfl
  | @cons xss yss ys hsub ih =>
      have hle := hsub.flatten.length_le
      have hpos := List.length_pos_iff.mpr (hne ys List.mem_cons_self)
      rw [List.flatten_cons, List.length_append] at hlen
      omega
  | @cons_cons xss yss ys hsub ih =>
      rw [List.flatten_cons, List.flatten_cons, List.length_append,
        List.length_append] at hlen
      rw [ih (fun zs hzs => hne zs (List.mem_cons_of_mem ys hzs))
        (by omega)]

/-- If there is one element for each, there is one for each. -/
theorem flatMap_length_one {α β : Type} {f : α → List β} {l : List α}
    (hne : ∀ a ∈ l, f a ≠ []) :
    l.length ≤ (l.flatMap f).length
      ∧ (l.length = (l.flatMap f).length → ∀ a ∈ l, (f a).length = 1) := by
  induction l with
  | nil => exact ⟨Nat.le_refl _, fun _ _ h => nomatch h⟩
  | cons a l ih =>
      obtain ⟨hle, hone⟩ := ih fun a' ha' =>
        hne a' (List.mem_cons_of_mem a ha')
      have hpos := List.length_pos_iff.mpr (hne a List.mem_cons_self)
      rw [List.flatMap_cons, List.length_append, List.length_cons]
      refine ⟨by omega, fun heq a' ha' => ?_⟩
      rcases List.mem_cons.mp ha' with rfl | ha'
      · omega
      · exact hone (by omega) a' ha'

-- ========================================================== the target

/-- Without a split everything is read, and the names are what is read
apart from empty texts. -/
theorem LinkEncoding.texts_unsplit (enc : LinkEncoding)
    (h : ∀ s ∈ enc.spellings, s.Unsplit) :
    enc.texts.map asBytes = enc.parts
      ∧ enc.texts.filter (· ≠ "")
        = (if enc.root then ["/"] else []) ++ enc.names := by
  have hpieces : ∀ s ∈ enc.spellings, s.pieces = [asBytes s.component.text] :=
    fun s hs => s.unsplit_iff.mp (h s hs)
  have hall : enc.texts.map asBytes = enc.parts := by
    refine enc.texts_eq fun bs hbs => ?_
    unfold parts at hbs
    rcases List.mem_append.mp hbs with hbs | hbs
    · split at hbs
      · exact ⟨"/", (List.mem_singleton.mp hbs).symm⟩
      · cases hbs
    · obtain ⟨s, hs, hbs⟩ := List.mem_flatMap.mp hbs
      rcases eq_or_ne bs [] with rfl | hne
      · exact ⟨"", rfl⟩
      · have hmem : bs ∈ s.pieces :=
          List.mem_filter.mpr ⟨hbs, by simpa using hne⟩
        rw [hpieces s hs, List.mem_singleton] at hmem
        exact ⟨_, hmem.symm⟩
  refine ⟨hall, List.map_injective_iff.mpr asBytes_injective ?_⟩
  have hfilter : (enc.texts.filter (· ≠ "")).map asBytes
      = (enc.texts.map asBytes).filter (· ≠ []) := by
    rw [List.filter_map]
    congr 1
    refine List.filter_congr fun s _ => ?_
    simp only [Function.comp_apply, ne_eq, asBytes_eq_nil]
  have hnames : (enc.spellings.flatMap (·.parts)).filter (· ≠ [])
      = enc.names.map asBytes := by
    rw [List.filter_flatMap, names, List.map_map, List.map_eq_flatMap]
    exact List.flatMap_congr hpieces
  rw [hfilter, hall, parts, List.filter_append, hnames, List.map_append]
  congr 1
  cases enc.root with
  | true => decide
  | false => rfl

/-- If what is read joins to the path, no name is split. -/
theorem LinkEncoding.unsplit_of_join (enc : LinkEncoding)
    (h : joinAll enc.texts = enc.target.path) :
    ∀ s ∈ enc.spellings, s.Unsplit := by
  obtain ⟨hok, htail⟩ := enc.texts_ok
  -- the texts read, without empty ones and roots, are the names
  have hnames : enc.texts.filter (fun s => s ≠ "" ∧ s ≠ "/")
      = enc.names := by
    rw [← flatMap_segments hok, ← segments_joinAll htail, h,
      enc.segments_path]
  -- so the names are among the pieces, and as long as these in all
  have hsub : (enc.names.map asBytes).Sublist
      (enc.spellings.flatMap (·.pieces)) := by
    rw [← hnames, ← enc.parts_filter]
    have hfilter : (enc.texts.filter
          (fun s => s ≠ "" ∧ s ≠ "/")).map asBytes
        = (enc.texts.map asBytes).filter
          (fun bs => bs ≠ [] ∧ bs ≠ asBytes "/") := by
      rw [List.filter_map]
      congr 1
      refine List.filter_congr fun s _ => ?_
      simp only [Function.comp_apply, ne_eq, asBytes_eq_nil,
        asBytes_injective.eq_iff]
    rw [hfilter]
    exact enc.texts_sublist.filter _
  have hlen : (enc.names.map asBytes).flatten.length
      = (enc.spellings.flatMap (·.pieces)).flatten.length := by
    unfold names
    rw [List.map_map]
    induction enc.spellings with
    | nil => rfl
    | cons s ss ih =>
        rw [List.map_cons, List.flatten_cons, List.flatMap_cons,
          List.flatten_append, List.length_append, List.length_append, ih,
          s.flatten_pieces]
        rfl
  have heq := eq_of_flatten_length hsub (fun bs hbs => by
    obtain ⟨s, -, hbs⟩ := List.mem_flatMap.mp hbs
    have hne := (List.mem_filter.mp hbs).2
    simpa using hne) hlen
  have hcount := congrArg List.length heq
  rw [List.length_map, LinkEncoding.names, List.length_map] at hcount
  intro s hs
  have hone := (flatMap_length_one fun s _ => s.pieces_ne_nil).2 hcount s hs
  obtain ⟨bs, hbs⟩ := List.length_eq_one_iff.mp hone
  have hflat := s.flatten_pieces
  rw [s.unsplit_iff, hbs]
  rw [hbs, List.flatten_singleton] at hflat
  rw [hflat]

/-- A record without text at the end is where the reading ends. -/
theorem LinkEncoding.getLast?_parts (enc : LinkEncoding)
    (h : enc.root = true ∨ enc.spellings ≠ []) :
    enc.parts.getLast? ≠ some []
      ↔ ∀ s, enc.spellings.getLast? = some s → s.EndsInText := by
  unfold parts
  rcases List.eq_nil_or_concat enc.spellings with hnil | ⟨ss, s, hss⟩
  · have hroot : enc.root = true := h.resolve_right fun hne => hne hnil
    rw [hnil, if_pos hroot]
    refine ⟨fun _ s hs => ?_, fun _ => ?_⟩
    · cases hs
    · decide
  · have hne : s.parts ≠ [] := by
      intro hnil
      apply s.pieces_ne_nil
      unfold Spelling.pieces
      rw [hnil]
      rfl
    rw [hss, List.concat_eq_append, List.flatMap_append,
      List.flatMap_singleton,
      ← List.append_assoc, List.getLast?_append_of_ne_nil _ hne,
      List.getLast?_concat, ← s.endsInText_iff]
    constructor
    · intro hs s' hs'
      injection hs' with hs'
      exact hs' ▸ hs
    · intro hs
      exact hs s rfl

/-- What is read joins to the path exactly when no name is split. -/
theorem LinkEncoding.join_texts_iff (enc : LinkEncoding) :
    (enc.texts ≠ [] ∧ joinAll enc.texts = enc.target.path)
      ↔ enc.Unsplit := by
  constructor
  · rintro ⟨hne, hjoin⟩
    have hunsplit := enc.unsplit_of_join hjoin
    obtain ⟨hall, -⟩ := enc.texts_unsplit hunsplit
    have hsome : enc.root = true ∨ enc.spellings ≠ [] := by
      by_contra hnone
      rw [not_or, not_not] at hnone
      refine hne (List.map_eq_nil_iff.mp (hall.trans ?_))
      unfold parts
      rw [if_neg hnone.1, hnone.2]
      rfl
    refine ⟨hsome, hunsplit, ?_⟩
    rw [← enc.getLast?_parts hsome]
    intro hlast
    -- an empty text at the end is joined to a separator there
    rw [← hall, List.getLast?_map, Option.map_eq_some_iff] at hlast
    obtain ⟨s, hs, hempty⟩ := hlast
    rw [asBytes_eq_nil] at hempty
    subst hempty
    obtain ⟨ss, hss⟩ := List.getLast?_eq_some_iff.mp hs
    have hend := joinAll_concat_empty ss
    rw [← hss, hjoin] at hend
    have hspell : enc.spellings ≠ [] := by
      intro hnil
      have hparts : enc.parts = [asBytes "/"] := by
        unfold parts
        rw [hnil, if_pos (hsome.resolve_right fun h => h hnil)]
        rfl
      have hmem : asBytes "" ∈ enc.texts.map asBytes :=
        List.mem_map_of_mem (hss ▸ List.mem_append_right _
          (List.mem_singleton_self ""))
      rw [hall, hparts] at hmem
      revert hmem
      decide
    obtain ⟨hpath, hslash⟩ := enc.getLast?_path hspell
    rcases hend with hend | hend
    · exact hpath hend
    · exact hslash hend
  · rintro ⟨hsome, hunsplit, hlast⟩
    obtain ⟨hall, hnames⟩ := enc.texts_unsplit hunsplit
    have hends : enc.texts.getLast? ≠ some "" := by
      intro hs
      rw [← enc.getLast?_parts hsome, ← hall, List.getLast?_map, hs]
        at hlast
      exact hlast rfl
    constructor
    · intro hnil
      rw [hnil, eq_comm] at hnames
      obtain ⟨hroot, hempty⟩ := List.append_eq_nil_iff.mp hnames
      rcases hsome with h | h
      · rw [if_pos h] at hroot
        cases hroot
      · exact h (List.map_eq_nil_iff.mp hempty)
    · rw [enc.path_eq, ← hnames, joinAll_filter hends]

/-- The decoded target of a recorded link. `bytes` are the entries of the
record's area and of its continuation areas, of which the `SL` entries
record the link; `susp` is what they are decoded to, which is the list
that `read_entry_at` works on. It computes the path that was recorded
exactly when there is one and no name of it is split. -/
theorem symlinkTarget_eq_path_iff (enc : LinkEncoding)
    {bytes : List (List UInt8)} {susp : List SystemUseEntry}
    (hsusp : List.Forall₂ (Decodes b) bytes susp)
    (hlinks : bytes.filter (fun bs => IsLink bs)
      = enc.entries.map (·.encode)) :
    (∀ pad kind, bytes ≠ [] → systemUseEntry b pad = .err (.error kind) →
        systemUseEntries b (bytes.flatten ++ pad) = .ok (pad, susp))
      ∧ (symlinkTarget b susp = .ok (some enc.target.path)
        ↔ enc.Unsplit)
      ∧ ∀ (rd : ISO9660Reader σ) (src : Source) (fuel : Nat)
        (dir : ISODirectory) (cache : BlockCache) (offset : Nat) (s : σ)
        (block : BlockBuffer) (header : DirectoryEntryHeader)
        (identifier : String) (area : Option (List SystemUseEntry))
        (entry : DirectoryEntry) (next : Option Nat),
        rd.Serves src → Coherent src dir cache →
        parseAt b src dir offset = .ok (block, header, identifier, area) →
        completeSusp b src fuel area = .ok susp →
        (readEntryAt b rd fuel dir cache offset s).1 = .ok (entry, next) →
        (entry.ext.symlinkTarget = some enc.target.path
          ↔ enc.Unsplit) := by
  have htarget := symlinkTarget_eq enc hsusp hlinks
  have hiff : symlinkTarget b susp = .ok (some enc.target.path)
      ↔ enc.Unsplit := by
    rw [htarget, ← enc.join_texts_iff]
    by_cases hnil : enc.texts = []
    · simp [hnil]
    · simp [hnil]
  refine ⟨fun pad kind hne hpad => systemUseEntries_eq hsusp hne hpad,
    hiff, ?_⟩
  intro rd src fuel dir cache offset s block header identifier area entry
    next hserve hco hparse hcomplete hread
  have hext := readEntryAt_ext hserve hco hparse hcomplete hread
  obtain ⟨t, ht, hext⟩ := Outcome.bind_eq_ok.mp hext
  injection hext with hext
  have hentry : entry.ext.symlinkTarget = t := by rw [← hext]
  rw [hentry, ← hiff, ht, Outcome.ok.injEq]

-- ============================================================ two pieces

/-- The name `ab`. -/
def abName : LinkName := ⟨"ab", by decide, by decide, by decide⟩

/-- A link to it, with the name cut in two. -/
def splitLink : LinkEncoding where
  root := false
  spellings := [.name abName [[0x61], [0x62]] (by decide)]
  entries := [⟨false, [.piece true [0x61], .piece false [0x62]],
    by decide⟩]
  distributed := rfl
  announced := by decide
  ended e h := by
    injection h with h
    rw [← h]
    rfl

/-- A block with one record, the file `L`, whose system use area is the
`SL` entry of the second. -/
def splitBlock : BlockBuffer :=
  BlockBuffer.new.overwrite
    ([45, 0, 21, 0, 0, 0, 0, 0, 0, 21, 0, 0, 0, 0, 0, 0, 0, 0,
      100, 1, 1, 0, 0, 0, 0, 0, 0, 0, 1, 0, 0, 1, 1, 0x4C]
      ++ splitLink.entries.flatMap (·.encode))

def splitSource : Source where
  deliver _ := .ok splitBlock.bytes
  atMostBlock h := splitBlock.delivered_le h

/-- The link to `ab` that is cut in two is a link to `a/b`. -/
theorem symlinkTarget_split :
    splitLink.target.path = "ab"
      ∧ (readEntryAt debugBuild splitSource.reader 0 dotDirectory
          BlockCache.new 0 ()).1.map (fun r => r.1.ext.symlinkTarget)
        = .ok (some "a/b") :=
  ⟨by decide +kernel, by decide +kernel⟩

-- =========================================================== two entries

def usrName : LinkName := ⟨"usr", by decide, by decide, by decide⟩

def binName : LinkName := ⟨"bin", by decide, by decide, by decide⟩

/-- A link to `/../usr/bin`: the root and `..` in one entry, the two names
in the next. -/
def binLink : LinkEncoding where
  root := true
  spellings := [.parent, .name usrName [[0x75, 0x73, 0x72]] (by decide),
    .name binName [[0x62, 0x69, 0x6E]] (by decide)]
  entries := [⟨true, [.root, .parent], by decide⟩,
    ⟨false, [.piece false [0x75, 0x73, 0x72],
      .piece false [0x62, 0x69, 0x6E]], by decide⟩]
  distributed := rfl
  announced := by decide
  ended e h := by
    injection h with h
    rw [← h]
    rfl

theorem binLink_unsplit : binLink.Unsplit where
  nonempty := Or.inl rfl
  unsplit s hs := by
    rcases List.mem_cons.mp hs with rfl | hs
    · exact trivial
    rcases List.mem_cons.mp hs with rfl | hs
    · rfl
    · rw [List.mem_singleton.mp hs]
      rfl
  endsInText s hs := by
    injection hs with hs
    rw [← hs]
    show [[(0x62 : UInt8), 0x69, 0x6E]].getLast? ≠ some []
    decide

/-- A block with one record, whose system use area is the two entries. -/
def binBlock : BlockBuffer :=
  BlockBuffer.new.overwrite
    ([58, 0, 21, 0, 0, 0, 0, 0, 0, 21, 0, 0, 0, 0, 0, 0, 0, 0,
      100, 1, 1, 0, 0, 0, 0, 0, 0, 0, 1, 0, 0, 1, 1, 0x4C]
      ++ binLink.entries.flatMap (·.encode))

def binSource : Source where
  deliver _ := .ok binBlock.bytes
  atMostBlock h := binBlock.delivered_le h

/-- The record is read as the link it is. -/
theorem symlinkTarget_bin :
    binLink.target.path = "/../usr/bin"
      ∧ symlinkTarget debugBuild (binLink.entries.map (·.decoded))
        = .ok (some binLink.target.path)
      ∧ ∃ entry next, (readEntryAt debugBuild binSource.reader 0
          dotDirectory BlockCache.new 0 ()).1 = .ok (entry, next)
        ∧ entry.ext.symlinkTarget = some binLink.target.path := by
  have hsusp : List.Forall₂ (Decodes debugBuild)
      (binLink.entries.map (·.encode))
      (binLink.entries.map (·.decoded)) :=
    .cons (decodes_entry _) (.cons (decodes_entry _) .nil)
  obtain ⟨-, htarget, hentry⟩ := symlinkTarget_eq_path_iff (σ := Unit)
    binLink hsusp (by decide +kernel)
  refine ⟨by decide +kernel, htarget.mpr binLink_unsplit, ?_⟩
  have hparse : (parseAt debugBuild binSource dotDirectory 0).map (·.2.2.2)
      = .ok (some (binLink.entries.map (·.decoded))) := by
    decide +kernel
  obtain ⟨⟨block, header, identifier, area⟩, hparse, harea⟩ :=
    Outcome.map_eq_ok.mp hparse
  obtain rfl : area = some (binLink.entries.map (·.decoded)) := harea
  have hread : (readEntryAt debugBuild binSource.reader 0 dotDirectory
      BlockCache.new 0 ()).1.map (fun _ => ()) = .ok () := by
    decide +kernel
  obtain ⟨⟨entry, next⟩, hread, -⟩ := Outcome.map_eq_ok.mp hread
  exact ⟨entry, next, hread, (hentry binSource.reader binSource 0
    dotDirectory BlockCache.new 0 () block header identifier _ entry next
    binSource.reader_serves (coherent_new binSource dotDirectory) hparse rfl
    hread).mpr binLink_unsplit⟩

end Cdfs
