/-
A Rock Ridge name, cut into chunks with an `NM` entry for each.

Each chunk is decoded by itself. One that ends inside a character is not
UTF-8, so its entry is kept as an unknown one, and `read_entry_at` joins
the chunks that are left. The bytes that are lost are not made up for
(`altName_eq`), so the name comes back exactly when every cut is between
two characters.
-/
import Cdfs.Proofs.Layout
import Cdfs.Proofs.SuspRoundTrip
import Cdfs.Rust.Path

namespace Cdfs

open Rust Parse Nom

variable {σ : Type} {b : Build} {src : Source}

-- ============================================================= recording

/-- A piece of a name that fits into an entry. -/
structure NameChunk where
  bytes : List UInt8
  fits : bytes.length ≤ 250

/-- The flags of an entry with another one behind it or not. -/
def nameFlags (more : Bool) : UInt8 :=
  if more then AlternateNameFlags.CONTINUE else 0

/-- The `NM` entry of a chunk. -/
def NameChunk.frame (more : Bool) (c : NameChunk) : Frame where
  sig := (0x4E, 0x4D)
  version := 1
  payload := nameFlags more :: c.bytes
  fits := Nat.succ_le_succ c.fits

/-- The entries of a name's chunks, each but the last with another one
behind it. -/
def nameFrames : List NameChunk → List Frame
  | [] => []
  | [c] => [c.frame false]
  | c :: c' :: cs => c.frame true :: nameFrames (c' :: cs)

/-- A name, and how it is cut. -/
structure NameEncoding where
  name : String
  nonempty : name ≠ ""
  noNul : '\x00' ∉ name.toList
  chunks : List NameChunk
  whole : chunks.flatMap (·.bytes) = asBytes name

-- ============================================================== decoding

/-- The name that an entry is, if it is one. -/
def asName : SystemUseEntry → Option AlternateName
  | .alternateName nm => some nm
  | _ => none

/-- The name that a frame is decoded to, if it is. -/
def frameName (b : Build) (f : Frame) : Option AlternateName :=
  match f.entry b with
  | .ok e => asName e
  | _ => none

/-- A chunk is a name if it is UTF-8. -/
theorem frameName_chunk {c : NameChunk} (hnul : (0 : UInt8) ∉ c.bytes)
    (more : Bool) :
    frameName b (c.frame more)
      = (fromUtf8 c.bytes).map fun s => ⟨s, nameFlags more⟩ := by
  have hflags : ∀ more, fromBitsTruncate AlternateNameFlags.all
      (nameFlags more) = nameFlags more := by decide
  have hdata : (AlternateName.parseSusp b).parseData (0x4E, 0x4D) 1
      (nameFlags more :: c.bytes)
        = (fromUtf8 c.bytes).elim (.err (.error .mapRes)) fun s =>
          .ok ([], ⟨trimMatches '\x00' s, nameFlags more⟩) := by
    show (do assertVersion b 1; _) = _
    rw [assertVersion_one, Outcome.ok_bind]
    simp only [Nom.map, mapRes, leU8, Nom.rest, Outcome.ok_bind, hflags]
    cases fromUtf8 c.bytes with
    | some s => rfl
    | none => rfl
  have htyped : (c.frame more).typed b = some (decodeWith
      (AlternateName.parseSusp b) .alternateName (c.frame more)) := rfl
  unfold frameName Frame.entry
  rw [htyped]
  unfold decodeWith NameChunk.frame
  dsimp only
  rw [hdata]
  cases htext : fromUtf8 c.bytes with
  | none => rfl
  | some s =>
      -- without a NUL nothing is trimmed
      rw [← fromUtf8_eq_some.mp htext, nul_mem_asBytes] at hnul
      have htrim : trimMatches '\x00' s = s :=
        trimMatches_eq (fun h => hnul (List.mem_of_head? h))
          fun h => hnul (List.mem_of_getLast? h)
      rw [Option.elim_some, htrim]
      rfl

/-- The names among the entries of some frames are those of the `NM`
frames. -/
theorem names_eq {frames : List Frame} {susp : List SystemUseEntry}
    (hsusp : List.Forall₂ (fun f e => f.entry b = .ok e) frames susp) :
    susp.filterMap asName
      = (frames.filter fun f => f.sig = (0x4E, 0x4D)).filterMap
        (frameName b) := by
  refine filterMap_frames asName (0x4E, 0x4D) (fun e hsig => ?_) hsusp
  cases e with
  | alternateName nm => exact absurd rfl hsig
  | _ => rfl

-- ============================================================= the chunks

/-- The chunks that are texts. -/
def chunkTexts (chunks : List NameChunk) : List String :=
  chunks.filterMap fun c => fromUtf8 c.bytes

/-- Each name but the last that is left is followed by another. -/
theorem frames_names (chunks : List NameChunk)
    (hnul : ∀ c ∈ chunks, (0 : UInt8) ∉ c.bytes) :
    let names := (nameFrames chunks).filterMap (frameName b)
    names.map (·.name) = chunkTexts chunks
      ∧ names.Pairwise fun nm _ =>
        contains nm.flags AlternateNameFlags.CONTINUE = true := by
  induction chunks using nameFrames.induct with
  | case1 => exact ⟨rfl, List.Pairwise.nil⟩
  | case2 c =>
      have hone := frameName_chunk (b := b) (hnul c List.mem_cons_self) false
      unfold nameFrames chunkTexts
      simp only [List.filterMap_cons, List.filterMap_nil, hone]
      cases fromUtf8 c.bytes with
      | none => exact ⟨rfl, List.Pairwise.nil⟩
      | some s => exact ⟨rfl, List.pairwise_singleton _ _⟩
  | case3 c c' cs ih =>
      have hone := frameName_chunk (b := b) (hnul c List.mem_cons_self) true
      obtain ⟨htexts, hpair⟩ := ih fun c hc =>
        hnul c (List.mem_cons_of_mem _ hc)
      unfold nameFrames chunkTexts
      rw [List.filterMap_cons, hone, List.filterMap_cons]
      cases fromUtf8 c.bytes with
      | none => exact ⟨htexts, hpair⟩
      | some s =>
          refine ⟨?_, List.pairwise_cons.mpr ⟨fun _ _ => ?_, hpair⟩⟩
          · rw [Option.map_some, List.map_cons, htexts]
            rfl
          · show contains AlternateNameFlags.CONTINUE _ = true
            decide

/-- The names are joined to one text, if there are any. -/
theorem foldl_names (names : List AlternateName) :
    ∀ acc : Option String,
      names.foldl (fun acc nm => some (acc.getD "" ++ nm.name)) acc
        = if names = [] then acc
          else some (acc.getD "" ++ String.join (names.map (·.name))) := by
  induction names with
  | nil => exact fun _ => rfl
  | cons nm names ih =>
      intro acc
      rw [List.foldl_cons, ih, if_neg (List.cons_ne_nil _ _), List.map_cons,
        String.join_cons, Option.getD_some, ← String.append_assoc]
      split
      · rename_i hnil
        rw [hnil]
        simp
      · rfl

theorem asBytes_join (ts : List String) :
    asBytes (String.join ts) = (ts.map asBytes).flatten := by
  induction ts with
  | nil => rfl
  | cons t ts ih =>
      rw [String.join_cons, List.map_cons, List.flatten_cons, ← ih]
      simp [asBytes]

theorem NameEncoding.nul_not_mem (enc : NameEncoding) {c : NameChunk}
    (hc : c ∈ enc.chunks) : (0 : UInt8) ∉ c.bytes := by
  intro h
  have hmem : (0 : UInt8) ∈ asBytes enc.name := by
    rw [← enc.whole]
    exact List.mem_flatMap.mpr ⟨c, hc, h⟩
  exact enc.noNul (nul_mem_asBytes.mp hmem)

/-- What `read_entry_at` makes of entries that hold a name. -/
theorem altName_eq (enc : NameEncoding) {frames : List Frame}
    {susp : List SystemUseEntry}
    (hsusp : List.Forall₂ (fun f e => f.entry b = .ok e) frames susp)
    (hnames : (frames.filter fun f => f.sig = (0x4E, 0x4D))
      = nameFrames enc.chunks) :
    altName susp = if chunkTexts enc.chunks = [] then none
      else some (String.join (chunkTexts enc.chunks)) := by
  obtain ⟨htexts, hpair⟩ := frames_names (b := b) enc.chunks
    fun c hc => enc.nul_not_mem hc
  have hname := names_eq hsusp
  rw [hnames] at hname
  show (takeWhileInclusive _ (susp.filterMap asName)).foldl _ none = _
  rw [hname, takeWhileInclusive_eq_self hpair, foldl_names, ← htexts]
  simp only [List.map_eq_nil_iff, Option.getD_none, String.empty_append]

/-- If the texts have all the bytes, every chunk is one. -/
theorem texts_of_length (chunks : List NameChunk) :
    ((chunkTexts chunks).map asBytes).flatten.length
        ≤ (chunks.flatMap (·.bytes)).length
      ∧ (((chunkTexts chunks).map asBytes).flatten.length
          = (chunks.flatMap (·.bytes)).length →
        ∀ c ∈ chunks, ∃ s, asBytes s = c.bytes) := by
  induction chunks with
  | nil => exact ⟨Nat.le_refl _, fun _ _ h => nomatch h⟩
  | cons c cs ih =>
      obtain ⟨hle, hall⟩ := ih
      unfold chunkTexts at hle hall ⊢
      rw [List.flatMap_cons, List.length_append, List.filterMap_cons]
      cases htext : fromUtf8 c.bytes with
      | none =>
          -- no bytes at all would be a text
          have hpos : 0 < c.bytes.length := by
            refine List.length_pos_iff.mpr fun hnil => ?_
            rw [hnil, ← asBytes_eq_nil.mpr rfl, fromUtf8_asBytes] at htext
            cases htext
          dsimp only
          exact ⟨by omega, fun h => absurd h (by omega)⟩
      | some s =>
          have hbytes := fromUtf8_eq_some.mp htext
          dsimp only
          rw [List.map_cons, List.flatten_cons, List.length_append, hbytes]
          refine ⟨by omega, fun h c' hc' => ?_⟩
          rcases List.mem_cons.mp hc' with rfl | hc'
          · exact ⟨s, hbytes⟩
          · exact hall (by omega) c' hc'

/-- If every chunk is a text, they have all the bytes. -/
theorem texts_eq_bytes {chunks : List NameChunk}
    (h : ∀ c ∈ chunks, ∃ s, asBytes s = c.bytes) :
    ((chunkTexts chunks).map asBytes).flatten
      = chunks.flatMap (·.bytes) := by
  induction chunks with
  | nil => rfl
  | cons c cs ih =>
      obtain ⟨s, hs⟩ := h c List.mem_cons_self
      have ih := ih fun c' hc' => h c' (List.mem_cons_of_mem c hc')
      unfold chunkTexts at ih ⊢
      rw [List.filterMap_cons, fromUtf8_eq_some.mpr hs]
      dsimp only
      rw [List.map_cons, List.flatten_cons, ih, hs, List.flatMap_cons]

/-- Every cut is between two characters: each chunk is UTF-8. -/
def NameEncoding.Whole (enc : NameEncoding) : Prop :=
  ∀ c ∈ enc.chunks, ∃ s, asBytes s = c.bytes

/-- The texts make up the name exactly when every chunk is one. -/
theorem NameEncoding.texts_iff (enc : NameEncoding) :
    (chunkTexts enc.chunks ≠ []
        ∧ String.join (chunkTexts enc.chunks) = enc.name)
      ↔ enc.Whole := by
  have hjoin := asBytes_join (chunkTexts enc.chunks)
  constructor
  · intro ⟨_, h⟩
    rw [h, ← enc.whole] at hjoin
    exact (texts_of_length enc.chunks).2 (congrArg List.length hjoin.symm)
  · intro h
    rw [texts_eq_bytes h, enc.whole] at hjoin
    have hname := asBytes_injective hjoin
    refine ⟨fun hnil => ?_, hname⟩
    rw [hnil] at hname
    exact enc.nonempty hname.symm

theorem NameEncoding.frames_ne_nil (enc : NameEncoding) :
    nameFrames enc.chunks ≠ [] := by
  have hwhole := enc.whole
  cases hchunks : enc.chunks with
  | nil =>
      rw [hchunks] at hwhole
      exact absurd (asBytes_eq_nil.mp hwhole.symm) enc.nonempty
  | cons c cs => cases cs <;> exact List.cons_ne_nil _ _

/-- The decoded name of a record. `frames` are the entries of the
record's area and of its continuation areas, of which the `NM` entries
record the name; `susp` is what they are decoded to, which is the list
that `read_entry_at` works on. It computes the name that was recorded
exactly when no cut is inside a character. -/
theorem altName_eq_name_iff (enc : NameEncoding) {frames : List Frame}
    {susp : List SystemUseEntry}
    (hsusp : List.Forall₂ (fun f e => f.entry b = .ok e) frames susp)
    (hnames : (frames.filter fun f => f.sig = (0x4E, 0x4D))
      = nameFrames enc.chunks) :
    (∀ pad kind, systemUseEntry b pad = .err (.error kind) →
        systemUseEntries b ((frames.map Frame.encode).flatten ++ pad)
          = .ok (pad, susp))
      ∧ (altName susp = some enc.name ↔ enc.Whole)
      ∧ ∀ (rd : ISO9660Reader σ) (src : Source) (fuel : Nat)
        (dir : ISODirectory) (cache : BlockCache) (offset : Nat) (s : σ)
        (block : BlockBuffer) (header : DirectoryEntryHeader)
        (identifier : String) (area : Option (List SystemUseEntry))
        (entry : DirectoryEntry) (next : Option Nat),
        rd.Serves src → Coherent src dir cache →
        parseAt b src dir offset = .ok (block, header, identifier, area) →
        completeSusp b src fuel area = .ok susp →
        (readEntryAt b rd fuel dir cache offset s).1 = .ok (entry, next) →
        (entry.ext.altName = some enc.name ↔ enc.Whole) := by
  have hiff : altName susp = some enc.name ↔ enc.Whole := by
    rw [altName_eq enc hsusp hnames, ← enc.texts_iff]
    by_cases hnil : chunkTexts enc.chunks = []
    · simp [hnil]
    · simp [hnil]
  refine ⟨fun pad kind hpad => ?_, hiff, ?_⟩
  · have hdecodes : List.Forall₂ (Decodes b) (frames.map Frame.encode)
        susp := by
      rw [List.forall₂_map_left_iff]
      exact hsusp.imp fun _ _ hentry => decodes_frame hentry
    refine systemUseEntries_eq hdecodes (fun hnil => ?_) hpad
    rw [List.map_eq_nil_iff] at hnil
    rw [hnil] at hnames
    exact enc.frames_ne_nil hnames.symm
  · intro rd src fuel dir cache offset s block header identifier area entry
      next hserve hco hparse hcomplete hread
    have hext := readEntryAt_ext hserve hco hparse hcomplete hread
    obtain ⟨_, -, hext⟩ := Outcome.bind_eq_ok.mp hext
    injection hext with hext
    have hentry : entry.ext.altName = altName susp := by rw [← hext]
    rw [hentry, hiff]

-- ============================================================ three chunks

/-- The name `aé`, with its second character cut in two. -/
def cutName : NameEncoding where
  name := "aé"
  nonempty := by decide
  noNul := by decide
  chunks := [⟨[0x61], by decide⟩, ⟨[0xC3], by decide⟩, ⟨[0xA9], by decide⟩]
  whole := by decide

/-- The same name, cut between the characters. -/
def wholeName : NameEncoding where
  name := "aé"
  nonempty := by decide
  noNul := by decide
  chunks := [⟨[0x61], by decide⟩, ⟨[0xC3, 0xA9], by decide⟩]
  whole := by decide

/-- A block with one record, the file `L`, whose system use area are the
`NM` entries of the first. -/
def cutNameBlock : BlockBuffer :=
  BlockBuffer.new.overwrite
    ([52, 0, 21, 0, 0, 0, 0, 0, 0, 21, 0, 0, 0, 0, 0, 0, 0, 0,
      100, 1, 1, 0, 0, 0, 0, 0, 0, 0, 1, 0, 0, 1, 1, 0x4C]
      ++ (nameFrames cutName.chunks).flatMap Frame.encode)

def cutNameSource : Source where
  deliver _ := .ok cutNameBlock.bytes
  atMostBlock h := cutNameBlock.delivered_le h

/-- Of the name that is cut inside a character `a` is left. -/
theorem altName_cut :
    cutName.name = "aé"
      ∧ (readEntryAt debugBuild cutNameSource.reader 0 dotDirectory
          BlockCache.new 0 ()).1.map (fun r => r.1.ext.altName)
        = .ok (some "a") :=
  ⟨rfl, by decide +kernel⟩

/-- The one that is not comes back. -/
theorem altName_whole :
    altName [.alternateName ⟨"a", 1⟩, .relocatedDirectory ⟨true⟩,
      .alternateName ⟨"é", 0⟩] = some "aé" := by
  have hsusp : List.Forall₂ (fun f e => f.entry debugBuild = .ok e)
      [⟨(0x4E, 0x4D), 1, [1, 0x61], by decide⟩, relocatedFrame,
        ⟨(0x4E, 0x4D), 1, [0, 0xC3, 0xA9], by decide⟩]
      [.alternateName ⟨"a", 1⟩, .relocatedDirectory ⟨true⟩,
        .alternateName ⟨"é", 0⟩] :=
    .cons (by decide +kernel) <| .cons (by decide +kernel) <|
      .cons (by decide +kernel) .nil
  refine ((altName_eq_name_iff (σ := Unit) wholeName hsusp rfl).2.1).mpr ?_
  intro c hc
  rcases List.mem_cons.mp hc with rfl | hc
  · exact ⟨"a", by decide⟩
  · rw [List.mem_singleton.mp hc]
    exact ⟨"é", by decide⟩

end Cdfs
