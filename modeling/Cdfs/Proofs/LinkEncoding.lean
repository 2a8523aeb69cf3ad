/-
Symbolic links as they are recorded, and what becomes of them.

A target is a root, if it has one, and a list of components. On the disc
it is a list of component records, spread over any number of `SL`
entries; a name may be cut into pieces with a record for each, which say
in a flag of their own that the name goes on (`LinkEncoding`).

The second half follows the bytes through the decoders. An `SL` entry is
decoded up to its first record that is not UTF-8, and is not an `SL`
entry any more if that leaves no record (`decodes_entry`). So what
`read_entry_at` computes is the join of the texts of the records that
are readable (`symlinkTarget_eq`), whatever else the area holds.
-/
import Cdfs.DirectoryEntry.Entry
import Cdfs.Proofs.SuspFrames
import Cdfs.Rust.Path

namespace Cdfs

open Rust Parse Nom

variable {b : Build}

-- ============================================================== targets

/-- A file name. -/
structure LinkName where
  text : String
  nonempty : text ≠ ""
  noSlash : '/' ∉ text.toList
  noNul : '\x00' ∉ text.toList

/-- A component of a target. -/
inductive LinkComponent where
  | current
  | parent
  | name (n : LinkName)

def LinkComponent.text : LinkComponent → String
  | .current => "."
  | .parent => ".."
  | .name n => n.text

theorem LinkComponent.text_ok (c : LinkComponent) :
    c.text ≠ "" ∧ '/' ∉ c.text.toList := by
  cases c with
  | current => decide
  | parent => decide
  | name n => exact ⟨n.nonempty, n.noSlash⟩

structure LinkTarget where
  root : Bool
  components : List LinkComponent

/-- The components with `/` between them, after a leading `/` for the
root. -/
def LinkTarget.path (t : LinkTarget) : String :=
  (if t.root then "/" else "")
    ++ "/".intercalate (t.components.map (·.text))

-- ============================================================== records

/-- A component record: one of the special ones, or a piece of a name,
with more of it in the next record or not. -/
inductive LinkRecord where
  | root
  | current
  | parent
  | piece (more : Bool) (bytes : List UInt8)

namespace LinkRecord

def flags : LinkRecord → UInt8
  | root => SymbolicLinkRecordFlags.ROOT
  | current => SymbolicLinkRecordFlags.CURRENT
  | parent => SymbolicLinkRecordFlags.PARENT
  | piece more _ => if more then SymbolicLinkRecordFlags.CONTINUE else 0

/-- The bytes recorded. -/
def content : LinkRecord → List UInt8
  | piece _ bytes => bytes
  | _ => []

/-- Flags, length and content. -/
def encode (r : LinkRecord) : List UInt8 :=
  r.flags :: UInt8.ofNat r.content.length :: r.content

/-- The record as the crate's decoder gives it, if it does. -/
def decoded (r : LinkRecord) : Option SymbolicLinkRecord :=
  (fromUtf8 r.content).map fun component => ⟨r.flags, component⟩

/-- The bytes that the record stands for. -/
def bytes : LinkRecord → List UInt8
  | root => asBytes "/"
  | current => asBytes "."
  | parent => asBytes ".."
  | piece _ bs => bs

/-- Their text, if it is one. -/
def text (r : LinkRecord) : Option String := fromUtf8 r.bytes

end LinkRecord

/-- The records of a name that is cut into some pieces. -/
def pieceRecords : List (List UInt8) → List LinkRecord
  | [] => []
  | [bs] => [.piece false bs]
  | bs :: bs' :: bss => .piece true bs :: pieceRecords (bs' :: bss)

/-- A component, and how it is recorded. -/
inductive Spelling where
  | current
  | parent
  | name (n : LinkName) (pieces : List (List UInt8))
      (whole : pieces.flatten = asBytes n.text)

namespace Spelling

def component : Spelling → LinkComponent
  | current => .current
  | parent => .parent
  | name n _ _ => .name n

def records : Spelling → List LinkRecord
  | current => [.current]
  | parent => [.parent]
  | name _ pieces _ => pieceRecords pieces

end Spelling

-- ============================================================== entries

/-- An `SL` entry. -/
structure SlEntry where
  shouldContinue : Bool
  records : List LinkRecord
  fits : (records.flatMap LinkRecord.encode).length ≤ 250

namespace SlEntry

/-- The flag of the entry and its component records. -/
def payload (e : SlEntry) : List UInt8 :=
  (if e.shouldContinue then 1 else 0)
    :: e.records.flatMap LinkRecord.encode

/-- Signature, length, version and payload. -/
def encode (e : SlEntry) : List UInt8 :=
  0x53 :: 0x4C :: UInt8.ofNat (e.payload.length + 4) :: 1 :: e.payload

end SlEntry

/-- A target as it is recorded. -/
structure LinkEncoding where
  root : Bool
  spellings : List Spelling
  entries : List SlEntry
  /-- the entries hold the records of the root and of each component in
  order -/
  distributed : entries.flatMap (·.records)
    = (if root then [.root] else []) ++ spellings.flatMap (·.records)
  /-- each entry but the last announces the next -/
  announced : ∀ e ∈ entries.dropLast, e.shouldContinue = true
  ended : ∀ e, entries.getLast? = some e → e.shouldContinue = false

/-- The target recorded. -/
def LinkEncoding.target (enc : LinkEncoding) : LinkTarget where
  root := enc.root
  components := enc.spellings.map (·.component)

-- ============================================================= decoding

/-- The records up to the first that is not readable. -/
def readable : List LinkRecord → List SymbolicLinkRecord
  | [] => []
  | r :: rs =>
      match r.decoded with
      | some d => d :: readable rs
      | none => []

/-- What an `SL` entry is decoded to. -/
def SlEntry.decoded (e : SlEntry) : SystemUseEntry :=
  match readable e.records with
  | [] => .unknown ⟨(0x53, 0x4C), 1, e.payload⟩
  | d :: ds => .symbolicLink ⟨e.shouldContinue, d :: ds⟩

/-- The bytes have the signature of an `SL` entry. -/
abbrev IsLink (bytes : List UInt8) : Prop := bytes.take 2 = [0x53, 0x4C]

theorem LinkRecord.fromBitsTruncate_flags (r : LinkRecord) :
    fromBitsTruncate SymbolicLinkRecordFlags.all r.flags = r.flags := by
  cases r with
  | root | current | parent => decide
  | piece more bytes =>
      have hboth : ∀ more : Bool,
          fromBitsTruncate SymbolicLinkRecordFlags.all
              (if more then SymbolicLinkRecordFlags.CONTINUE else 0)
            = if more then SymbolicLinkRecordFlags.CONTINUE else 0 := by
        decide
      exact hboth more

/-- One record. -/
theorem parse_record (r : LinkRecord) (hfit : r.content.length < 256)
    (rest : List UInt8) :
    SymbolicLinkRecord.parse (r.encode ++ rest)
      = match r.decoded with
        | some d => .ok (rest, d)
        | none => .err (.error .mapRes) := by
  have hlen : (UInt8.ofNat r.content.length).toNat = r.content.length :=
    UInt8.toNat_ofNat_of_lt' hfit
  have hle : r.content.length ≤ (r.content ++ rest).length := by
    rw [List.length_append]
    omega
  unfold SymbolicLinkRecord.parse LinkRecord.encode LinkRecord.decoded
  simp only [List.cons_append, Nom.map, leU8, Outcome.ok_bind,
    LinkRecord.fromBitsTruncate_flags, mapRes, lengthData, hlen,
    if_pos hle, List.drop_left, List.take_left]
  cases fromUtf8 r.content with
  | some s => rfl
  | none => rfl

/-- The records of an entry. -/
theorem many_records (fuel : Nat) :
    ∀ rs : List LinkRecord,
      (rs.flatMap LinkRecord.encode).length < fuel →
      (rs.flatMap LinkRecord.encode).length ≤ 250 →
      ∃ rest, many SymbolicLinkRecord.parse fuel
        (rs.flatMap LinkRecord.encode) = .ok (rest, readable rs) := by
  induction fuel with
  | zero => exact fun rs h => absurd h (Nat.not_lt_zero _)
  | succ fuel ih =>
      intro rs hfuel hfit
      match rs with
      | [] => exact ⟨[], rfl⟩
      | r :: rs =>
          rw [List.flatMap_cons] at hfuel hfit ⊢
          have henc : r.encode.length = r.content.length + 2 := rfl
          rw [List.length_append, henc] at hfuel hfit
          unfold many readable
          rw [parse_record r (by omega)]
          cases r.decoded with
          | none => exact ⟨_, rfl⟩
          | some d =>
              obtain ⟨rest, hrest⟩ := ih rs (by omega) (by omega)
              dsimp only
              rw [if_neg (by rw [List.length_append, henc]; omega), hrest]
              exact ⟨rest, rfl⟩

/-- The same for `many1`, which wants a record. -/
theorem many1_records {rs : List LinkRecord}
    (hfit : (rs.flatMap LinkRecord.encode).length ≤ 250) :
    (readable rs = [] → ∃ kind, many1 SymbolicLinkRecord.parse
        (rs.flatMap LinkRecord.encode) = .err (.error kind))
      ∧ (readable rs ≠ [] → ∃ rest, many1 SymbolicLinkRecord.parse
        (rs.flatMap LinkRecord.encode) = .ok (rest, readable rs)) := by
  match rs with
  | [] => exact ⟨fun _ => ⟨.eof, rfl⟩, fun h => absurd rfl h⟩
  | r :: rs =>
      rw [List.flatMap_cons] at hfit ⊢
      have henc : r.encode.length = r.content.length + 2 := rfl
      rw [List.length_append, henc] at hfit
      have hparse := parse_record r (by omega)
        (rs.flatMap LinkRecord.encode)
      unfold many1 readable
      rw [hparse]
      cases r.decoded with
      | none => exact ⟨fun _ => ⟨.mapRes, rfl⟩, fun h => absurd rfl h⟩
      | some d =>
          obtain ⟨rest, hrest⟩ := many_records _ rs (Nat.lt_succ_self _)
            (by omega)
          refine ⟨(fun h => nomatch h), fun _ => ⟨rest, ?_⟩⟩
          dsimp only [Outcome.ok_bind]
          rw [hrest]
          rfl

-- ====================================================== an entry's bytes

theorem SlEntry.length_payload (e : SlEntry) :
    e.payload.length + 4 < 256 := by
  have hfits := e.fits
  unfold payload
  rw [List.length_cons]
  omega

/-- The payload of an `SL` entry. -/
theorem parseData_payload (e : SlEntry) :
    (readable e.records = [] → ∃ kind,
        (SymbolicLink.parseSusp b).parseData (0x53, 0x4C) 1 e.payload
          = .err (.error kind))
      ∧ (readable e.records ≠ [] → ∃ rest,
        (SymbolicLink.parseSusp b).parseData (0x53, 0x4C) 1 e.payload
          = .ok (rest, ⟨e.shouldContinue, readable e.records⟩)) := by
  obtain ⟨hnone, hsome⟩ := many1_records e.fits
  have hdata : (SymbolicLink.parseSusp b).parseData (0x53, 0x4C) 1
        e.payload = (many1 SymbolicLinkRecord.parse
          (e.records.flatMap LinkRecord.encode)
        >>= fun r => .ok (r.1, ⟨e.shouldContinue, r.2⟩)) := by
    unfold SymbolicLink.parseSusp SlEntry.payload assertVersion
    simp only [BEq.rfl, Outcome.assert_true, Outcome.ok_bind, alt_flag]
  rw [hdata]
  constructor
  · intro h
    obtain ⟨kind, hkind⟩ := hnone h
    rw [hkind]
    exact ⟨kind, rfl⟩
  · intro h
    obtain ⟨rest, hrest⟩ := hsome h
    rw [hrest]
    exact ⟨rest, rfl⟩

/-- An `SL` entry is a frame. -/
def SlEntry.frame (e : SlEntry) : Frame where
  sig := (0x53, 0x4C)
  version := 1
  payload := e.payload
  fits := by
    have hlen := e.length_payload
    omega

/-- An `SL` entry in an area is decoded to its readable records, and
counts as unknown if it has none. -/
theorem decodes_entry (e : SlEntry) : Decodes b e.encode e.decoded := by
  intro rest
  obtain ⟨hnone, hsome⟩ := parseData_payload (b := b) e
  have hframe : e.encode = e.frame.encode := rfl
  have htyped : e.frame.typed b = some (decodeWith
      (SymbolicLink.parseSusp b) .symbolicLink e.frame) := rfl
  rw [hframe, systemUseEntry_frame, Frame.entry, htyped]
  unfold SlEntry.decoded decodeWith SlEntry.frame
  dsimp only
  cases hread : readable e.records with
  | nil =>
      obtain ⟨kind, hkind⟩ := hnone hread
      rw [hkind]
      rfl
  | cons d ds =>
      obtain ⟨rest', hdata⟩ := hsome (hread ▸ List.cons_ne_nil d ds)
      rw [hdata, hread]
      rfl

/-- Only an entry with that signature is decoded to a link. -/
theorem isLink_of_decodes {bytes : List UInt8} {l : SymbolicLink}
    (h : Decodes b bytes (.symbolicLink l)) : IsLink bytes := by
  have h := h []
  rw [List.append_nil] at h
  have halt : ∀ (ps : List (Parser SystemUseEntry)) {r : Input}
      {e : SystemUseEntry}, alt ps bytes = .ok (r, e) →
      ∃ p ∈ ps, p bytes = .ok (r, e) := by
    intro ps
    induction ps with
    | nil => exact fun h => nomatch h
    | cons p ps ih =>
        intro r e h
        match ps with
        | [] => exact ⟨p, List.mem_cons_self, h⟩
        | q :: ps =>
            unfold alt at h
            split at h
            · obtain ⟨p', hp', h⟩ := ih h
              exact ⟨p', List.mem_cons_of_mem p hp', h⟩
            · exact ⟨p, List.mem_cons_self, h⟩
  obtain ⟨p, hp, h⟩ := halt _ h
  have hother : ∀ {α : Type} {k : Parser α} {f : α → SystemUseEntry},
      Nom.map k f bytes = .ok ([], .symbolicLink l) →
      ∃ a, f a = .symbolicLink l := by
    intro α k f h
    obtain ⟨⟨i, a⟩, -, h⟩ := Outcome.bind_eq_ok.mp h
    injection h with h
    injection h with _ ha
    exact ⟨a, ha⟩
  simp only [List.mem_cons, List.not_mem_nil, or_false] at hp
  rcases hp with rfl | rfl | rfl | rfl | rfl | rfl | rfl | rfl | rfl | rfl
    | rfl
  case inr.inr.inr.inr.inr.inr.inr.inr.inr.inl =>
    obtain ⟨⟨i, a⟩, h, -⟩ := Outcome.bind_eq_ok.mp h
    obtain ⟨⟨i', sig, length, version, data⟩, h, -⟩ :=
      Outcome.bind_eq_ok.mp h
    obtain ⟨⟨i'', sig'⟩, h, -⟩ := Outcome.bind_eq_ok.mp h
    change tag [0x53, 0x4C] bytes = _ at h
    unfold tag at h
    split at h
    · rename_i hbegin
      obtain ⟨t, ht⟩ := hbegin
      unfold IsLink
      rw [← ht]
      rfl
    · cases h
  all_goals
    obtain ⟨a, ha⟩ := hother h
    cases ha

-- ============================================================== the texts

/-- The texts of the records up to the first that is not readable. -/
def texts : List LinkRecord → List String
  | [] => []
  | r :: rs =>
      match r.text with
      | some s => s :: texts rs
      | none => []

/-- The texts of all entries. -/
def LinkEncoding.texts (enc : LinkEncoding) : List String :=
  enc.entries.flatMap fun e => Cdfs.texts e.records

/-- A record is readable when its text is one, and its path is then that
text. -/
theorem componentPath_decoded (r : LinkRecord) :
    (r.decoded = none ∧ r.text = none)
      ∨ ∃ d s, r.decoded = some d ∧ r.text = some s
        ∧ componentPath b d = .ok s := by
  have hempty : fromUtf8 [] = some "" := fromUtf8_asBytes ""
  unfold LinkRecord.decoded LinkRecord.text
  cases r with
  | root =>
      refine Or.inr ⟨⟨SymbolicLinkRecordFlags.ROOT, ""⟩, "/", ?_,
        fromUtf8_asBytes "/", ?_⟩
      · rw [LinkRecord.content, hempty]
        · rfl
        · exact fun _ _ h => nomatch h
      · have hself : contains SymbolicLinkRecordFlags.ROOT
            SymbolicLinkRecordFlags.ROOT = true := by decide
        simp [componentPath, hself]
  | current =>
      refine Or.inr ⟨⟨SymbolicLinkRecordFlags.CURRENT, ""⟩, ".", ?_,
        fromUtf8_asBytes ".", ?_⟩
      · rw [LinkRecord.content, hempty]
        · rfl
        · exact fun _ _ h => nomatch h
      · have hroot : contains SymbolicLinkRecordFlags.CURRENT
            SymbolicLinkRecordFlags.ROOT = false := by decide
        have hself : contains SymbolicLinkRecordFlags.CURRENT
            SymbolicLinkRecordFlags.CURRENT = true := by decide
        simp [componentPath, hroot, hself]
  | parent =>
      refine Or.inr ⟨⟨SymbolicLinkRecordFlags.PARENT, ""⟩, "..", ?_,
        fromUtf8_asBytes "..", ?_⟩
      · rw [LinkRecord.content, hempty]
        · rfl
        · exact fun _ _ h => nomatch h
      · have hroot : contains SymbolicLinkRecordFlags.PARENT
            SymbolicLinkRecordFlags.ROOT = false := by decide
        have hcurrent : contains SymbolicLinkRecordFlags.PARENT
            SymbolicLinkRecordFlags.CURRENT = false := by decide
        have hself : contains SymbolicLinkRecordFlags.PARENT
            SymbolicLinkRecordFlags.PARENT = true := by decide
        simp [componentPath, hroot, hcurrent, hself]
  | piece more bs =>
      rw [LinkRecord.content, LinkRecord.bytes]
      cases fromUtf8 bs with
      | none => exact Or.inl ⟨rfl, rfl⟩
      | some s =>
          refine Or.inr ⟨_, s, rfl, rfl, ?_⟩
          have hplain : ∀ more : Bool,
              let flags := if more then SymbolicLinkRecordFlags.CONTINUE
                else 0
              contains flags SymbolicLinkRecordFlags.ROOT = false
                ∧ contains flags SymbolicLinkRecordFlags.CURRENT = false
                ∧ contains flags SymbolicLinkRecordFlags.PARENT = false := by
            decide
          obtain ⟨hroot, hcurrent, hparent⟩ := hplain more
          simp [componentPath, LinkRecord.flags, hroot, hcurrent, hparent]

/-- The path of an entry is the join of its texts. -/
theorem recordsPath_readable (rs : List LinkRecord) :
    recordsPath b (readable rs) = .ok (joinAll (texts rs))
      ∧ (readable rs = [] ↔ texts rs = []) := by
  have hfold : ∀ (rs : List LinkRecord) (acc : String),
      (readable rs).foldlM (fun acc r => do
          let p ← componentPath b r
          .ok (pathJoin acc p)) acc
        = .ok ((texts rs).foldl pathJoin acc) := by
    intro rs
    induction rs with
    | nil => exact fun _ => rfl
    | cons r rs ih =>
        intro acc
        unfold readable texts
        rcases componentPath_decoded (b := b) r with ⟨hd, hs⟩
          | ⟨d, s, hd, hs, hpath⟩
        · rw [hd, hs]
          rfl
        · rw [hd, hs]
          dsimp only
          rw [List.foldlM_cons, hpath, List.foldl_cons]
          exact ih _
  refine ⟨hfold rs "", ?_⟩
  match rs with
  | [] => exact ⟨fun _ => rfl, fun _ => rfl⟩
  | r :: rs =>
      unfold readable texts
      rcases componentPath_decoded (b := b) r with ⟨hd, hs⟩
        | ⟨d, s, hd, hs, -⟩
      · rw [hd, hs]
        exact ⟨fun _ => rfl, fun _ => rfl⟩
      · rw [hd, hs]
        exact ⟨(fun h => nomatch h), fun h => nomatch h⟩

-- ============================================================== the links

/-- The link that an entry is, if it is one. -/
def asLink : SystemUseEntry → Option SymbolicLink
  | .symbolicLink sl => some sl
  | _ => none

theorem SlEntry.asLink_decoded (e : SlEntry) :
    asLink e.decoded = if readable e.records = [] then none
      else some ⟨e.shouldContinue, readable e.records⟩ := by
  unfold decoded
  cases readable e.records with
  | nil => rfl
  | cons d ds => rfl

/-- The links among the entries of an area are those of its `SL`
entries. -/
theorem links_eq {bytes : List (List UInt8)} {susp : List SystemUseEntry}
    (hsusp : List.Forall₂ (Decodes b) bytes susp) :
    ∀ {es : List SlEntry},
      bytes.filter (fun bs => IsLink bs) = es.map (·.encode) →
      susp.filterMap asLink = es.filterMap fun e => asLink e.decoded := by
  induction hsusp with
  | nil =>
      intro es h
      rw [List.filter_nil, eq_comm, List.map_eq_nil_iff] at h
      rw [h]
      rfl
  | @cons bs entry bytes susp hdec _ ih =>
      intro es h
      by_cases hlink : IsLink bs
      · rw [List.filter_cons_of_pos (by simpa using hlink)] at h
        match es with
        | [] => cases h
        | e :: es =>
            injection h with hbs h
            have hone := hdec []
            rw [hbs, decodes_entry e []] at hone
            injection hone with hone
            injection hone with _ hone
            rw [List.filterMap_cons, List.filterMap_cons, hone, ih h]
      · rw [List.filter_cons_of_neg (by simpa using hlink)] at h
        have hnone : asLink entry = none := by
          cases entry with
          | symbolicLink l => exact absurd (isLink_of_decodes hdec) hlink
          | _ => rfl
        rw [List.filterMap_cons, hnone]
        exact ih h

/-- What announces the next among the entries does so among the links:
dropping some of them leaves no other one before the last. -/
theorem LinkEncoding.links_announced (enc : LinkEncoding) :
    (enc.entries.filterMap fun e => asLink e.decoded).Pairwise
      fun l _ => l.shouldContinue = true := by
  have hentries : enc.entries.Pairwise
      fun e _ => e.shouldContinue = true := by
    have hann := enc.announced
    generalize enc.entries = es at hann ⊢
    induction es with
    | nil => exact List.Pairwise.nil
    | cons e es ih =>
        match es with
        | [] => exact List.pairwise_singleton _ _
        | e' :: es =>
            rw [List.dropLast_cons_cons] at hann
            rw [List.pairwise_cons]
            exact ⟨fun _ _ => hann e List.mem_cons_self,
              ih fun e'' he'' => hann e'' (List.mem_cons_of_mem e he'')⟩
  rw [List.pairwise_filterMap]
  refine hentries.imp fun {e _} he l hl _ _ => ?_
  rw [SlEntry.asLink_decoded] at hl
  split at hl
  · cases hl
  · injection hl with hl
    rw [← hl]
    exact he

/-- What `read_entry_at` computes from the entries of an area that holds
a link. -/
theorem symlinkTarget_eq (enc : LinkEncoding)
    {bytes : List (List UInt8)} {susp : List SystemUseEntry}
    (hsusp : List.Forall₂ (Decodes b) bytes susp)
    (hlinks : bytes.filter (fun bs => IsLink bs)
      = enc.entries.map (·.encode)) :
    symlinkTarget b susp
      = .ok (if enc.texts = [] then none else some (joinAll enc.texts)) := by
  have hfold : ∀ (es : List SlEntry) (acc : Option String),
      (es.filterMap fun e => asLink e.decoded).foldlM
          (fun acc sl => do
            let p ← recordsPath b sl.records
            .ok (some (pathJoin (acc.getD "") p))) acc
        = .ok (if (es.flatMap fun e => texts e.records) = [] then acc
          else some ((es.flatMap fun e => texts e.records).foldl pathJoin
            (acc.getD ""))) := by
    intro es
    induction es with
    | nil => exact fun _ => rfl
    | cons e es ih =>
        intro acc
        obtain ⟨hpath, hempty⟩ := recordsPath_readable (b := b) e.records
        rw [List.filterMap_cons, List.flatMap_cons, e.asLink_decoded]
        by_cases hread : readable e.records = []
        · rw [if_pos hread, hempty.mp hread]
          exact ih acc
        · have hne : texts e.records ≠ [] := fun h => hread (hempty.mpr h)
          rw [if_neg hread]
          dsimp only
          rw [List.foldlM_cons, hpath]
          simp only [Outcome.ok_bind]
          rw [ih, if_neg (List.append_ne_nil_of_left_ne_nil hne _),
            List.foldl_append, Option.getD_some, ← foldl_pathJoin hne]
          split
          · rename_i hrest
            rw [hrest, List.foldl_nil]
          · rfl
  show (takeWhileInclusive SymbolicLink.shouldContinue
    (susp.filterMap asLink)).foldlM _ none = _
  rw [links_eq hsusp hlinks,
    takeWhileInclusive_eq_self enc.links_announced, hfold]
  rfl

end Cdfs
