/-
The frames of a system use area: two signature bytes, a length, a
version and the payload that the length announces.

What `systemUseEntry` answers for a frame depends on the frame alone
(`systemUseEntry_frame`): its signature picks a kind, the kind's decoder
is given the payload, and what the decoder rejects is kept as bytes. So
an area is read frame by frame, up to the first bytes that are no frame
(`splitFrames`).
-/
import Cdfs.Parse.Susp

namespace Cdfs

open Rust Parse Nom

variable {b : Build}

-- ============================================================== frames

/-- One entry of an area, whatever its payload. -/
structure Frame where
  sig : UInt8 × UInt8
  version : UInt8
  payload : List UInt8
  fits : payload.length ≤ 251

namespace Frame

def encode (f : Frame) : List UInt8 :=
  f.sig.1 :: f.sig.2 :: UInt8.ofNat (f.payload.length + 4) :: f.version
    :: f.payload

/-- The frame kept as bytes. -/
def unknown (f : Frame) : Unknown := ⟨f.sig, f.version, f.payload⟩

theorem length_encode (f : Frame) :
    f.encode.length = f.payload.length + 4 := rfl

theorem toNat_length (f : Frame) :
    (UInt8.ofNat (f.payload.length + 4)).toNat = f.payload.length + 4 := by
  have hfits := f.fits
  have hlen : f.payload.length + 4 < 256 := by omega
  exact UInt8.toNat_ofNat_of_lt' hlen

end Frame

-- ================================================================ kinds

/-- A kind of entry, by its signature and the decoder of its payload. -/
structure Kind where
  sig : UInt8 × UInt8
  decode : Frame → Outcome Err SystemUseEntry

/-- What the decoder of a kind makes of a frame. -/
def decodeWith {α : Type} (k : ParseSusp α) (wrap : α → SystemUseEntry)
    (f : Frame) : Outcome Err SystemUseEntry :=
  (k.parseData f.sig f.version f.payload).map fun r => wrap r.2

/-- The kinds with a signature of their own. -/
def kinds (b : Build) : List Kind := [
  ⟨(0x53, 0x50), decodeWith (SuspIndicator.parseSusp b) .suspIndicator⟩,
  ⟨(0x43, 0x45), decodeWith (ContinuationArea.parseSusp b)
    .continuationArea⟩,
  ⟨(0x45, 0x52), decodeWith (ExtensionsReference.parseSusp b)
    .extensionsReference⟩,
  ⟨(0x54, 0x46), decodeWith (PosixTimestamp.parseSusp b) .posixTimestamp⟩,
  ⟨(0x4E, 0x4D), decodeWith (AlternateName.parseSusp b) .alternateName⟩,
  ⟨(0x50, 0x58), decodeWith (PosixAttributes.parseSusp b)
    .posixAttributes⟩,
  ⟨(0x52, 0x52), decodeWith (RockRidge.parseSusp b) .rockRidge⟩,
  ⟨(0x43, 0x4C), decodeWith (ChildLink.parseSusp b) .childLink⟩,
  ⟨(0x52, 0x45), decodeWith (RelocatedDirectory.parseSusp b)
    .relocatedDirectory⟩,
  ⟨(0x53, 0x4C), decodeWith (SymbolicLink.parseSusp b) .symbolicLink⟩]

/-- What the kind that a frame's signature names makes of the frame. -/
def Frame.typed (b : Build) (f : Frame) :
    Option (Outcome Err SystemUseEntry) :=
  ((kinds b).find? fun k => k.sig == f.sig).map fun k => k.decode f

/-- A payload that is rejected is kept as bytes, and so is one of no
kind. -/
def Frame.kept (f : Frame) :
    Option (Outcome Err SystemUseEntry) → Outcome Err SystemUseEntry
  | some (.err (.error _)) => .ok (.unknown f.unknown)
  | some r => r
  | none => .ok (.unknown f.unknown)

/-- What becomes of a frame. -/
def Frame.entry (b : Build) (f : Frame) : Outcome Err SystemUseEntry :=
  f.kept (f.typed b)

-- ====================================================== a frame's bytes

/-- An alternative that answers `Error` is passed over. -/
theorem alt_skip {α : Type} {p q : Parser α} {ps : List (Parser α)}
    {i : Input} {kind : ErrorKind} (h : p i = .err (.error kind)) :
    alt (p :: q :: ps) i = alt (q :: ps) i := by
  simp only [alt, h]

/-- A kind with another signature. -/
theorem parse_other {α : Type} {k : ParseSusp α} {s₀ s₁ t₀ t₁ : UInt8}
    (hk : k.signature = some (s₀, s₁)) (hne : ¬ (s₀ = t₀ ∧ s₁ = t₁))
    (f : α → SystemUseEntry) (i : Input) :
    Nom.map (k.parse b) f (t₀ :: t₁ :: i) = .err (.error .tag) := by
  have htag : tag [s₀, s₁] (t₀ :: t₁ :: i) = .err (.error .tag) := by
    unfold tag
    rw [if_neg]
    rw [List.cons_prefix_cons, List.cons_prefix_cons]
    exact fun h => hne ⟨h.1, h.2.1⟩
  unfold Nom.map ParseSusp.parse ParseSusp.parseSig ParseSusp.sig
  rw [hk]
  dsimp only
  rw [htag]
  rfl

/-- What is left of a frame to its kind is the payload. -/
theorem parse_frame {α : Type} {k : ParseSusp α} {f : Frame}
    {rest : List UInt8}
    (hsig : k.sig (f.encode ++ rest)
      = .ok (f.encode.drop 2 ++ rest, [f.sig.1, f.sig.2])) :
    k.parse b (f.encode ++ rest) = (do
      let (_, entry) ← k.parseData f.sig f.version f.payload
      .ok (rest, entry)) := by
  have hnat := f.toNat_length
  have hne : UInt8.ofNat (f.payload.length + 4) ≠ 0 := by
    intro h
    have hzero := congrArg UInt8.toNat h
    rw [hnat] at hzero
    exact absurd hzero (Nat.succ_ne_zero _)
  have hle : f.payload.length ≤ (f.payload ++ rest).length := by
    rw [List.length_append]
    omega
  unfold ParseSusp.parse ParseSusp.parseSig
  rw [hsig]
  simp only [Outcome.ok_bind, Frame.encode, List.drop_succ_cons,
    List.drop_zero, List.cons_append, leU8, if_neg hne, hnat]
  rw [subW_of_le (by omega), Nat.add_sub_cancel, Outcome.ok_bind,
    take_of_le hle, List.drop_left, List.take_left]
  rfl

theorem sig_some {α : Type} {k : ParseSusp α} {s₀ s₁ : UInt8}
    (hk : k.signature = some (s₀, s₁)) (i : Input) :
    k.sig (s₀ :: s₁ :: i) = .ok (i, [s₀, s₁]) := by
  unfold ParseSusp.sig
  rw [hk]
  dsimp only
  unfold tag
  rw [if_pos ⟨i, rfl⟩]
  rfl

/-- The flag byte at the front of a link's payload. -/
theorem alt_flag (more : Bool) (i : Input) :
    alt [value true (tag [0x01]), value false (tag [0x00])]
      ((if more then 1 else 0) :: i) = .ok (i, more) := by
  cases more with
  | true | false => simp [alt, value, Nom.map, tag]

/-- Any other byte is an error. -/
theorem alt_flag_cases (i : Input) :
    (∃ (more : Bool) (i' : Input), i = (if more then 1 else 0) :: i'
        ∧ alt [value true (tag [0x01]), value false (tag [0x00])] i
          = .ok (i', more))
      ∨ (∀ (flag : UInt8) (i' : Input), i = flag :: i' →
          ¬ (flag = 0 ∨ flag = 1))
        ∧ ∃ kind, alt [value true (tag [0x01]), value false (tag [0x00])] i
          = .err (.error kind) := by
  match i with
  | [] => exact Or.inr ⟨(fun _ _ h => nomatch h), .tag, rfl⟩
  | flag :: i =>
      by_cases hzero : flag = 0
      · rw [hzero]
        exact Or.inl ⟨false, i, rfl, alt_flag false i⟩
      · by_cases hone : flag = 1
        · rw [hone]
          exact Or.inl ⟨true, i, rfl, alt_flag true i⟩
        · refine Or.inr ⟨?_, .tag, ?_⟩
          · rintro _ _ ⟨⟩
            rw [not_or]
            exact ⟨hzero, hone⟩
          · simp [alt, value, Nom.map, tag, Ne.symm hzero, Ne.symm hone]

/-- The parser of a kind, on any frame. -/
def Reads (p : Parser SystemUseEntry) (k : Kind) : Prop :=
  ∀ (f : Frame) (rest : List UInt8), p (f.encode ++ rest)
    = if k.sig = f.sig then (k.decode f).map fun e => (rest, e)
      else .err (.error .tag)

theorem reads_parse {α : Type} {k : ParseSusp α} {sig : UInt8 × UInt8}
    (hk : k.signature = some sig) (wrap : α → SystemUseEntry) :
    Reads (Nom.map (k.parse b) wrap) ⟨sig, decodeWith k wrap⟩ := by
  intro f rest
  obtain ⟨s₀, s₁⟩ := sig
  dsimp only
  by_cases hsig : (s₀, s₁) = f.sig
  · have hself : k.sig (f.encode ++ rest)
        = .ok (f.encode.drop 2 ++ rest, [f.sig.1, f.sig.2]) := by
      rw [hsig] at hk
      exact sig_some hk _
    rw [if_pos hsig]
    unfold Nom.map decodeWith
    rw [parse_frame hself]
    cases k.parseData f.sig f.version f.payload with
    | ok r => rfl
    | err | panic | running => rfl
  · rw [if_neg hsig]
    exact parse_other hk (fun h => hsig (Prod.ext h.1 h.2)) wrap _

/-- The catch-all takes every frame. -/
theorem unknown_frame (f : Frame) (rest : List UInt8) :
    Nom.map (Unknown.parseSusp.parse b) SystemUseEntry.unknown
        (f.encode ++ rest)
      = .ok (rest, .unknown f.unknown) := by
  have hsig : Unknown.parseSusp.sig (f.encode ++ rest)
      = .ok (f.encode.drop 2 ++ rest, [f.sig.1, f.sig.2]) := rfl
  unfold Nom.map
  rw [parse_frame hsig]
  rfl

/-- Kinds tried in order, with the catch-all behind them. No two have
one signature, so that behind the one that a frame's signature names
only the catch-all is left. -/
theorem alt_frame {ps : List (Parser SystemUseEntry)} {ks : List Kind}
    (hreads : List.Forall₂ Reads ps ks) (hsigs : (ks.map (·.sig)).Nodup)
    (f : Frame) (rest : List UInt8) :
    alt (ps ++ [Nom.map (Unknown.parseSusp.parse b) SystemUseEntry.unknown])
        (f.encode ++ rest)
      = (f.kept ((ks.find? fun k => k.sig == f.sig).map
          fun k => k.decode f)).map fun e => (rest, e) := by
  induction hreads with
  | nil => exact unknown_frame f rest
  | @cons p k ps ks hp hps ih =>
      rw [List.map_cons, List.nodup_cons] at hsigs
      have hcons : ∃ q qs, ps ++ [Nom.map (Unknown.parseSusp.parse b)
          SystemUseEntry.unknown] = q :: qs :=
        List.exists_cons_of_ne_nil (List.append_ne_nil_of_right_ne_nil _
          (List.cons_ne_nil _ _))
      obtain ⟨q, qs, hq⟩ := hcons
      have ih := ih hsigs.2
      have hread := hp f rest
      rw [List.cons_append, hq, List.find?_cons]
      rw [hq] at ih
      by_cases hsig : k.sig = f.sig
      · have hnone : (ks.find? fun k => k.sig == f.sig) = none := by
          rw [List.find?_eq_none]
          intro k' hk' heq
          rw [← hsig, beq_iff_eq] at heq
          exact hsigs.1 (heq ▸ List.mem_map_of_mem hk')
        rw [if_pos hsig] at hread
        rw [hnone] at ih
        simp only [hsig, BEq.rfl, Option.map_some]
        cases hdec : k.decode f with
        | ok e =>
            rw [hdec] at hread
            simp only [alt, hread, Frame.kept, Outcome.map]
        | err e =>
            rw [hdec] at hread
            cases e with
            | error kind =>
                rw [alt_skip hread, ih]
                rfl
            | incomplete => simp only [alt, hread, Frame.kept, Outcome.map]
        | panic =>
            rw [hdec] at hread
            simp only [alt, hread, Frame.kept, Outcome.map]
        | running =>
            rw [hdec] at hread
            simp only [alt, hread, Frame.kept, Outcome.map]
      · rw [if_neg hsig] at hread
        rw [alt_skip hread, ih, beq_eq_false_iff_ne.mpr hsig]

/-- An entry is read by its frame alone. -/
theorem systemUseEntry_frame (f : Frame) (rest : List UInt8) :
    systemUseEntry b (f.encode ++ rest)
      = (f.entry b).map fun e => (rest, e) := by
  have hreads : List.Forall₂ Reads [
      Nom.map ((SuspIndicator.parseSusp b).parse b) .suspIndicator,
      Nom.map ((ContinuationArea.parseSusp b).parse b) .continuationArea,
      Nom.map ((ExtensionsReference.parseSusp b).parse b)
        .extensionsReference,
      Nom.map ((PosixTimestamp.parseSusp b).parse b) .posixTimestamp,
      Nom.map ((AlternateName.parseSusp b).parse b) .alternateName,
      Nom.map ((PosixAttributes.parseSusp b).parse b) .posixAttributes,
      Nom.map ((RockRidge.parseSusp b).parse b) .rockRidge,
      Nom.map ((ChildLink.parseSusp b).parse b) .childLink,
      Nom.map ((RelocatedDirectory.parseSusp b).parse b)
        .relocatedDirectory,
      Nom.map ((SymbolicLink.parseSusp b).parse b) .symbolicLink]
      (kinds b) :=
    .cons (reads_parse rfl _) <| .cons (reads_parse rfl _) <|
    .cons (reads_parse rfl _) <| .cons (reads_parse rfl _) <|
    .cons (reads_parse rfl _) <| .cons (reads_parse rfl _) <|
    .cons (reads_parse rfl _) <| .cons (reads_parse rfl _) <|
    .cons (reads_parse rfl _) <| .cons (reads_parse rfl _) .nil
  have hsigs : ((kinds b).map (·.sig)).Nodup := by
    show List.Nodup [((0x53 : UInt8), (0x50 : UInt8)), (0x43, 0x45),
      (0x45, 0x52), (0x54, 0x46), (0x4E, 0x4D), (0x50, 0x58),
      (0x52, 0x52), (0x43, 0x4C), (0x52, 0x45), (0x53, 0x4C)]
    decide
  exact alt_frame hreads hsigs f rest

-- ========================================================== signatures

/-- The signature of an entry's kind. -/
def entrySig : SystemUseEntry → UInt8 × UInt8
  | .continuationArea _ => (0x43, 0x45)
  | .extensionsReference _ => (0x45, 0x52)
  | .suspIndicator _ => (0x53, 0x50)
  | .alternateName _ => (0x4E, 0x4D)
  | .posixAttributes _ => (0x50, 0x58)
  | .posixTimestamp _ => (0x54, 0x46)
  | .rockRidge _ => (0x52, 0x52)
  | .symbolicLink _ => (0x53, 0x4C)
  | .childLink _ => (0x43, 0x4C)
  | .relocatedDirectory _ => (0x52, 0x45)
  | .unknown e => e.sig

theorem decodeWith_eq_ok {α : Type} {k : ParseSusp α}
    {wrap : α → SystemUseEntry} {f : Frame} {e : SystemUseEntry}
    (h : decodeWith k wrap f = .ok e) : ∃ a, wrap a = e := by
  unfold decodeWith at h
  cases hdata : k.parseData f.sig f.version f.payload with
  | ok r =>
      rw [hdata] at h
      injection h with h
      exact ⟨r.2, h⟩
  | err | panic | running =>
      rw [hdata] at h
      cases h

/-- An entry has the signature of its frame. -/
theorem sig_of_entry {f : Frame} {e : SystemUseEntry}
    (h : f.entry b = .ok e) : entrySig e = f.sig := by
  have hkind : ∀ k ∈ kinds b, k.decode f = .ok e →
      entrySig e = k.sig := by
    intro k hk hdec
    simp only [kinds, List.mem_cons, List.not_mem_nil, or_false] at hk
    rcases hk with rfl | rfl | rfl | rfl | rfl | rfl | rfl | rfl | rfl | rfl
    all_goals
      obtain ⟨a, ha⟩ := decodeWith_eq_ok hdec
      rw [← ha]
      rfl
  have hkept : Outcome.ok (.unknown f.unknown) = (.ok e : Outcome Err _) →
      entrySig e = f.sig := by
    intro h
    injection h with h
    rw [← h]
    rfl
  unfold Frame.entry at h
  cases htyped : f.typed b with
  | none =>
      rw [htyped] at h
      exact hkept h
  | some r =>
      obtain ⟨k, hfind, hdec⟩ := Option.map_eq_some_iff.mp htyped
      have hsig : k.sig = f.sig := by
        simpa using List.find?_some hfind
      rw [htyped] at h
      cases r with
      | ok e' =>
          injection h with h
          rw [h] at hdec
          rw [← hsig]
          exact hkind k (List.mem_of_find?_eq_some hfind) hdec
      | err err =>
          cases err with
          | error kind => exact hkept h
          | incomplete => cases h
      | panic | running => cases h

/-- What a frame is decoded to, as a value of one kind. -/
def Frame.value {α : Type} (as : SystemUseEntry → Option α) (b : Build)
    (f : Frame) : Option α :=
  match f.entry b with
  | .ok e => as e
  | _ => none

/-- The values of one kind among the entries of some frames are those of
the frames with the kind's signature. -/
theorem filterMap_frames {α : Type} (as : SystemUseEntry → Option α)
    (sig : UInt8 × UInt8)
    (hkind : ∀ e, entrySig e ≠ sig → as e = none)
    {frames : List Frame} {susp : List SystemUseEntry}
    (hsusp : List.Forall₂ (fun f e => f.entry b = .ok e) frames susp) :
    susp.filterMap as
      = (frames.filter fun f => f.sig = sig).filterMap
        (Frame.value as b) := by
  induction hsusp with
  | nil => rfl
  | @cons f e frames susp hentry _ ih =>
      have hvalue : Frame.value as b f = as e := by
        unfold Frame.value
        rw [hentry]
      by_cases hsig : f.sig = sig
      · rw [List.filter_cons_of_pos (by simpa using hsig),
          List.filterMap_cons, List.filterMap_cons, hvalue, ih]
      · have hnone := hkind e (sig_of_entry hentry ▸ hsig)
        rw [List.filter_cons_of_neg (by simpa using hsig),
          List.filterMap_cons, hnone]
        exact ih

-- ================================================================ areas

/-- These bytes of an area are decoded to this entry. -/
def Decodes (b : Build) (bytes : List UInt8) (e : SystemUseEntry) : Prop :=
  ∀ rest, systemUseEntry b (bytes ++ rest) = .ok (rest, e)

/-- A frame that is decoded is decoded wherever it stands. -/
theorem decodes_frame {f : Frame} {e : SystemUseEntry}
    (h : f.entry b = .ok e) : Decodes b f.encode e := by
  intro rest
  rw [systemUseEntry_frame, h]
  rfl

/-- An area of such entries is decoded to them, up to what is no entry. -/
theorem systemUseEntries_eq {bytes : List (List UInt8)}
    {susp : List SystemUseEntry}
    (hsusp : List.Forall₂ (Decodes b) bytes susp) (hne : bytes ≠ [])
    {pad : List UInt8} {kind : ErrorKind}
    (hpad : systemUseEntry b pad = .err (.error kind)) :
    systemUseEntries b (bytes.flatten ++ pad) = .ok (pad, susp) :=
  many1_takes hsusp hne hpad

-- ====================================================== splitting an area

/-- The frame at the front of some bytes, and what is behind it. -/
def frameAt : List UInt8 → Option (Frame × List UInt8)
  | s₀ :: s₁ :: length :: version :: rest =>
      if h : 4 ≤ length.toNat ∧ length.toNat - 4 ≤ rest.length then
        some (⟨(s₀, s₁), version, rest.take (length.toNat - 4), by
          have hlt := length.toNat_lt
          rw [List.length_take]
          omega⟩, rest.drop (length.toNat - 4))
      else none
  | _ => none

theorem frameAt_encode (f : Frame) (rest : List UInt8) :
    frameAt (f.encode ++ rest) = some (f, rest) := by
  have hlen : (UInt8.ofNat (f.payload.length + 4)).toNat - 4
      = f.payload.length := by
    rw [f.toNat_length, Nat.add_sub_cancel]
  have hle : 4 ≤ (UInt8.ofNat (f.payload.length + 4)).toNat
      ∧ (UInt8.ofNat (f.payload.length + 4)).toNat - 4
        ≤ (f.payload ++ rest).length := by
    rw [f.toNat_length, List.length_append]
    omega
  unfold Frame.encode
  simp only [List.cons_append, frameAt]
  rw [dif_pos hle]
  simp only [hlen, List.take_left, List.drop_left]

/-- The front of the bytes is the frame's own bytes. -/
theorem frameAt_eq_some {i rest : List UInt8} {f : Frame}
    (h : frameAt i = some (f, rest)) : i = f.encode ++ rest := by
  unfold frameAt at h
  split at h
  · rename_i s₀ s₁ length version rest'
    split at h
    · rename_i hle
      injection h with h
      injection h with hf hrest
      have hlen : (rest'.take (length.toNat - 4)).length + 4
          = length.toNat := by
        rw [List.length_take]
        omega
      rw [← hf, ← hrest]
      unfold Frame.encode
      simp only [hlen, UInt8.ofNat_toNat, List.cons_append,
        List.take_append_drop]
    · cases h
  · cases h

/-- The frames that some bytes split into, as long as there is one, and
what is behind them. -/
def splitFrames (i : List UInt8) : List Frame × List UInt8 :=
  match h : frameAt i with
  | some (f, rest) =>
      have : rest.length < i.length := by
        rw [frameAt_eq_some h, List.length_append, f.length_encode]
        omega
      (f :: (splitFrames rest).1, (splitFrames rest).2)
  | none => ([], i)
termination_by i.length

theorem splitFrames_some {i rest : List UInt8} {f : Frame}
    (h : frameAt i = some (f, rest)) :
    splitFrames i = (f :: (splitFrames rest).1, (splitFrames rest).2) := by
  rw [splitFrames]
  split
  · rename_i f' rest' h'
    rw [h] at h'
    injection h' with h'
    injection h' with hf hrest
    rw [hf, hrest]
  · rename_i h'
    rw [h] at h'
    cases h'

theorem splitFrames_none {i : List UInt8} (h : frameAt i = none) :
    splitFrames i = ([], i) := by
  rw [splitFrames]
  split
  · rename_i h'
    rw [h] at h'
    cases h'
  · rfl

/-- They are the bytes, and there is no more frame behind them. -/
theorem splitFrames_spec (i : List UInt8) :
    i = ((splitFrames i).1.map Frame.encode).flatten ++ (splitFrames i).2
      ∧ frameAt (splitFrames i).2 = none := by
  induction i using splitFrames.induct with
  | case1 i f rest hframe _ ih =>
      rw [splitFrames_some hframe, List.map_cons, List.flatten_cons,
        List.append_assoc, ← ih.1]
      exact ⟨frameAt_eq_some hframe, ih.2⟩
  | case2 i hnone =>
      rw [splitFrames_none hnone]
      exact ⟨rfl, hnone⟩

/-- No other frames are. -/
theorem splitFrames_eq {frames : List Frame} {tail : List UInt8}
    (hend : frameAt tail = none) :
    splitFrames ((frames.map Frame.encode).flatten ++ tail)
      = (frames, tail) := by
  induction frames with
  | nil => exact splitFrames_none hend
  | cons f frames ih =>
      rw [List.map_cons, List.flatten_cons, List.append_assoc,
        splitFrames_some (frameAt_encode f _), ih]

end Cdfs
