/-
Lookup references. Every reply to a lookup gives the kernel a reference
to the number in it, and a `forget` gives some back; as long as there are
references left the number has to be known.

`forget` drops the number whatever it is told. So the references are
honoured throughout a run exactly if each `forget` of the run gives back
all that are left (`references_honoured_iff`). Numbers from the counter
are given out once, so that one reference is all there is
(`forgetsAll_of_generated`); with the serial numbers of the disc two
lookups of one file are two references to one number.
-/
import Cdfs.Proofs.Handlers
import Cdfs.Proofs.VolumeScan

namespace Cdfs

open Rust Parse Numbering Service ISOFuse

variable {σ : Type} {host : Host σ} {fs₀ fs : ISOFuse σ}

/-- What was asked and answered, the latest first. -/
abbrev Log : Type := List (Request × Outcome Errno Reply)

variable {log : Log}

/-- All runs, whatever is asked. -/
abbrev AnyRun (host : Host σ) (fs₀ : ISOFuse σ) : Log → ISOFuse σ → Prop :=
  Run (serve host) (fun _ _ => True) fs₀

-- ============================================================ references

/-- The number that the kernel gets a reference to. -/
def given : Request × Outcome Errno Reply → Option ℕ
  | (.lookup _ _, .ok (.entry attr)) => some attr.ino
  | _ => none

/-- The references to a number that the kernel gives back. -/
def givenBack (n : ℕ) : Request × Outcome Errno Reply → ℕ
  | (.forget ino nlookup, _) => if ino = n then nlookup else 0
  | _ => 0

theorem given_eq_some {q : Request} {a : Outcome Errno Reply} {n : ℕ} :
    given (q, a) = some n ↔ ∃ parent name attr, q = .lookup parent name
      ∧ a = .ok (.entry attr) ∧ attr.ino = n := by
  constructor
  · intro h
    unfold given at h
    split at h
    · rename_i parent name attr heq
      injection heq with hq ha
      injection h with h
      exact ⟨parent, name, attr, hq, ha, h⟩
    · cases h
  · rintro ⟨parent, name, attr, rfl, rfl, rfl⟩
    rfl

theorem givenBack_eq_zero {q : Request} {n : ℕ}
    (hq : ∀ ino nlookup, q ≠ .forget ino nlookup)
    (a : Outcome Errno Reply) : givenBack n (q, a) = 0 := by
  unfold givenBack
  split
  · rename_i ino nlookup _ heq
    injection heq with heq
    exact absurd heq (hq ino nlookup)
  · rfl

/-- The references to a number that there were. -/
def lookups (n : ℕ) (log : Log) : ℕ := log.countP (given · == some n)

/-- Those that were given back. -/
def forgotten (n : ℕ) : Log → ℕ
  | [] => 0
  | e :: log => givenBack n e + forgotten n log

theorem lookups_cons (n : ℕ) (e : Request × Outcome Errno Reply)
    (log : Log) :
    lookups n (e :: log)
      = lookups n log + if given e == some n then 1 else 0 :=
  List.countP_cons

theorem forgotten_cons (n : ℕ) (e : Request × Outcome Errno Reply)
    (log : Log) :
    forgotten n (e :: log) = givenBack n e + forgotten n log := rfl

/-- Every `forget`, with what was asked and answered before. -/
def EachForget (p : ℕ → ℕ → Log → Prop) : Log → Prop
  | [] => True
  | e :: early =>
      (match e.1 with
        | .forget ino nlookup => p ino nlookup early
        | _ => True)
      ∧ EachForget p early

instance EachForget.decidable (p : ℕ → ℕ → Log → Prop)
    [h : ∀ n k log, Decidable (p n k log)] :
    ∀ log, Decidable (EachForget p log)
  | [] => .isTrue trivial
  | e :: early =>
      have := EachForget.decidable p early
      match e with
      | (.forget ino nlookup, _) =>
          inferInstanceAs (Decidable (p ino nlookup early ∧ _))
      | (.lookup _ _, _) | (.getattr _, _) | (.readlink _, _)
      | (.openFile _, _) | (.read _ _ _, _) | (.release _, _)
      | (.opendir _, _) | (.getxattr, _) | (.readdir _ _ _, _)
      | (.releasedir _, _) => inferInstanceAs (Decidable (True ∧ _))

theorem EachForget.suffix {p : ℕ → ℕ → Log → Prop} {early log : Log}
    (h : EachForget p log) (hearly : early <:+ log) :
    EachForget p early := by
  induction log with
  | nil =>
      rw [List.suffix_nil.mp hearly]
      trivial
  | cons e log ih =>
      rcases List.suffix_cons_iff.mp hearly with heq | hearly
      · rw [heq]
        exact h
      · exact ih h.2 hearly

/-- No `forget` gives back more than there is. -/
abbrev Restrained : Log → Prop :=
  EachForget fun n k early => forgotten n early + k ≤ lookups n early

/-- Each gives back all. -/
abbrev ForgetsAll : Log → Prop :=
  EachForget fun n k early => lookups n early ≤ forgotten n early + k

-- ============================================================== knowledge

/-- A number that is in the table, and is not refused. -/
structure Known (host : Host σ) (fs : ISOFuse σ) (n : ℕ) : Prop where
  present : fs.inodes n ≠ none
  getattr : getattr host fs n ≠ .err .EINVAL
  openFile : (fs.openFile n).1 ≠ .err .EINVAL
  opendir : (fs.opendir n).1 ≠ .err .EINVAL
  lookup : ∀ name, (lookup host fs n name).1 ≠ .err .EINVAL

/-- The handlers refuse no number in the table. -/
theorem known_iff {n : ℕ} : Known host fs n ↔ fs.inodes n ≠ none := by
  refine ⟨Known.present, fun h => ?_⟩
  obtain ⟨entry, hentry⟩ := Option.ne_none_iff_exists'.mp h
  refine ⟨h, ?_, ?_, ?_, fun name => ?_⟩
  · unfold ISOFuse.getattr
    rw [hentry]
    dsimp only
    rcases getFileattr_cases host n entry with ⟨attr, hattr, -⟩ | ⟨hattr, -⟩
    · rw [hattr]
      exact fun h => nomatch h
    · rw [hattr]
      exact fun h => nomatch h
  · rcases fs.openFile_cases n with ⟨e, hcall, hrefuse⟩ | ⟨_, -, hcall⟩
    · rw [hcall]
      exact fun heq => h (hrefuse (Outcome.err.inj heq))
    · rw [hcall]
      exact fun h => nomatch h
  · rcases fs.opendir_cases n with ⟨e, hcall, hrefuse⟩ | ⟨_, -, hcall⟩
    · rw [hcall]
      exact fun heq => h (hrefuse (Outcome.err.inj heq))
    · rw [hcall]
      exact fun h => nomatch h
  · rcases lookup_cases host fs n name with ⟨-, -, hrefuse⟩ |
      ⟨_, _, _, _, _, -, -, -, -, -, -, hcall⟩
    · exact fun heq => h (hrefuse heq)
    · rw [hcall]
      exact fun h => nomatch h

/-- The number in the reply to a lookup is in the table. -/
theorem lookup_present {parent : ℕ} {name : List UInt8} {attr : FileAttr}
    (h : (lookup host fs parent name).1 = .ok (.entry attr)) :
    (lookup host fs parent name).2.table.bound attr.ino ≠ none := by
  obtain ⟨-, -, entry, -, -, -, -, -, hbound⟩ := lookup_entered h
  exact fun hnone => Option.some_ne_none entry (hbound.symm.trans hnone)

-- ================================================================== runs

/-- If each `forget` gives back all, a number with references left is in
the table. -/
theorem present_of_forgetsAll (hrun : AnyRun host fs₀ log fs) :
    ForgetsAll log → ∀ n, forgotten n log < lookups n log →
      fs.table.bound n ≠ none := by
  induction hrun with
  | start => exact fun _ n h => nomatch h
  | @serve log fs q _ _ _ ih =>
      rintro ⟨hlast, hall⟩ n hlt
      rw [lookups_cons, forgotten_cons] at hlt
      rcases forget_or q with ⟨m, k, rfl⟩ | hq
      · show (fs.table.drop m).bound n ≠ none
        change (if m = n then k else 0) + _ < _ + 0 at hlt
        change lookups m log ≤ forgotten m log + k at hlast
        by_cases hm : m = n
        · rw [if_pos hm, ← hm] at hlt
          omega
        · rw [if_neg hm] at hlt
          rw [Table.bound_drop_of_ne (Ne.symm hm)]
          exact ih hall n (by omega)
      · rw [givenBack_eq_zero hq] at hlt
        by_cases hgiven : given (q, (serve host fs q).1) = some n
        · obtain ⟨parent, name, attr, rfl, hanswer, rfl⟩ :=
            given_eq_some.mp hgiven
          exact lookup_present hanswer
        · rw [if_neg (by rwa [beq_iff_eq])] at hlt
          exact (serve_table host fs q hq).known (ih hall n (by omega))

/-- The references are honoured in every state of a run exactly if each
`forget` gives back all references that are left. -/
theorem references_honoured_iff (hrun : AnyRun host fs₀ log fs) :
    (∀ early fs', early <:+ log → AnyRun host fs₀ early fs' →
        ∀ n, forgotten n early < lookups n early → Known host fs' n)
      ↔ ForgetsAll log := by
  constructor
  · intro hknown
    induction hrun with
    | start => trivial
    | @serve log fs q hrun hmeets hreturned ih =>
        refine ⟨?_, ih fun early fs' hearly =>
          hknown early fs' (hearly.trans (List.suffix_cons _ _))⟩
        cases q with
        | forget m k =>
            by_contra hless
            refine (hknown _ _ (List.suffix_refl _)
              (.serve _ hrun hmeets hreturned) m ?_).present
              (Function.update_self _ _ _)
            rw [lookups_cons, forgotten_cons]
            show (if m = m then k else 0) + _ < _ + 0
            rw [if_pos rfl]
            change ¬ lookups m log ≤ forgotten m log + k at hless
            omega
        | lookup | getattr | readlink | openFile | read | release
        | opendir | getxattr | readdir | releasedir => trivial
  · intro hall early fs' hearly hrun' n hlt
    exact known_iff.mpr
      (present_of_forgetsAll hrun' (hall.suffix hearly) n hlt)

/-- Numbers from the counter are given out once: so if no `forget` gives
back nothing at all, each gives back all. -/
theorem forgetsAll_of_generated (hgen : fs₀.inodeAutogenerated = true)
    (hrun : AnyRun host fs₀ log fs)
    (hpos : EachForget (fun _ k _ => 0 < k) log) : ForgetsAll log := by
  have honce : ForgetsAll log ∧ fs.inodeAutogenerated = true
      ∧ ∀ n, lookups n log ≤ 1
        ∧ (0 < lookups n log → n < fs.inodeNumber) := by
    induction hrun with
    | start => exact ⟨trivial, hgen, fun n => ⟨Nat.zero_le _, fun h =>
        absurd h (Nat.lt_irrefl 0)⟩⟩
    | @serve log fs q _ _ _ ih =>
        obtain ⟨hall, hauto, honce⟩ := ih hpos.2
        have hlast := hpos.1
        rcases forget_or q with ⟨m, k, rfl⟩ | hq
        · change 0 < k at hlast
          refine ⟨⟨?_, hall⟩, hauto, honce⟩
          show lookups m log ≤ forgotten m log + k
          have := (honce m).1
          omega
        · have hent := serve_table host fs q hq
          refine ⟨⟨?_, hall⟩, hent.generated.trans hauto, fun n => ?_⟩
          · cases q with
            | forget m k => exact absurd rfl (hq m k)
            | lookup | getattr | readlink | openFile | read | release
            | opendir | getxattr | readdir | releasedir => trivial
          rw [lookups_cons]
          obtain ⟨hle, hlt⟩ := honce n
          have hnext : fs.inodeNumber ≤ (serve host fs q).2.inodeNumber :=
            hent.next_le
          by_cases hgiven : given (q, (serve host fs q).1) = some n
          · obtain ⟨parent, name, attr, rfl, hanswer, rfl⟩ :=
              given_eq_some.mp hgiven
            change (ISOFuse.lookup host fs parent name).1 = _ at hanswer
            obtain ⟨hnum, hmoved⟩ := lookup_counted hauto hanswer
            rw [if_pos (beq_iff_eq.mpr hgiven)]
            constructor
            · omega
            · intro _
              show attr.ino
                < (ISOFuse.lookup host fs parent name).2.inodeNumber
              omega
          · rw [if_neg (by rwa [beq_iff_eq])]
            exact ⟨hle, fun h => Nat.lt_of_lt_of_le (hlt h) hnext⟩
  exact honce.1

-- ======================================================= two references

/-- A `PX` entry of 44 bytes, with a serial number. -/
def pxBytes (mode ino : UInt32) : List UInt8 :=
  [0x50, 0x58, 44, 1] ++ both32 mode ++ both32 1 ++ both32 0 ++ both32 0
    ++ both32 ino

/-- The directory itself, with Rock Ridge and the serial number 7, and an
empty file `A`. -/
def serialBlock (ino : UInt32) : BlockBuffer :=
  BlockBuffer.new.overwrite
    ([96, 0, 18, 0, 0, 0, 0, 0, 0, 18, 0, 8, 0, 0, 0, 0, 8, 0,
      100, 1, 1, 0, 0, 0, 0, 2, 0, 0, 1, 0, 0, 1, 1, 0]
      ++ [0x45, 0x52, 18, 1, 10, 0, 0, 1] ++ asBytes "RRIP_1991A"
      ++ pxBytes 0o040755 7
      ++ [78, 0, 21, 0, 0, 0, 0, 0, 0, 21, 0, 0, 0, 0, 0, 0, 0, 0,
        100, 1, 1, 0, 0, 0, 0, 0, 0, 0, 1, 0, 0, 1, 1, 0x41]
      ++ pxBytes 0o100644 ino)

/-- The program on a disc, run by its superuser. -/
def hostOf (root : BlockBuffer) : Host Unit where
  build := quietBuild
  reader := (discOf root).reader
  euid := 0
  egid := 0
  fuel := 20

/-- The state that a disc is mounted in. -/
def mountOf (root : BlockBuffer) : Outcome ISOError (ISOFuse Unit) :=
  mount (hostOf root) ⟨discRoot, none, .volumeDescriptorSetTerminator⟩ ()

theorem new_hostOf (root : BlockBuffer) :
    ISOFuse.new (hostOf root) () = mountOf root := by
  have hfirst : (discOf root).deliver 16 = .ok discBlock.bytes := rfl
  have hsecond : (discOf root).deliver 17 = .ok terminatorBlock.bytes := rfl
  obtain ⟨primary, hnew⟩ := new_of_deliver hfirst hsecond
  have hmount : ISOFuse.new (hostOf root) () = mount (hostOf root)
      ⟨discRoot, none, primary⟩ () :=
    new_of_parsed hnew
  exact hmount.trans (mount_primary _ _ _ _ _ _)

/-- Mounts a disc and asks some requests: whether they are all answered,
and what they lead to passes a test. -/
def session (root : BlockBuffer) (qs : List Request)
    (test : Log → ISOFuse Unit → Bool) : Bool :=
  match mountOf root with
  | .ok fs =>
      let (log, fs) := serveAll (serve (hostOf root)) fs qs []
      log.all (fun e => decide e.2.Returned) && test log fs
  | _ => false

/-- Then it is a run. -/
theorem run_session (root : BlockBuffer) (qs : List Request)
    (test : Log → ISOFuse Unit → Bool) (h : session root qs test = true) :
    ∃ fs₀ log fs, ISOFuse.new (hostOf root) () = .ok fs₀
      ∧ AnyRun (hostOf root) fs₀ log fs ∧ test log fs = true := by
  rw [new_hostOf]
  unfold session at h
  split at h
  · rename_i fs₀ hnew
    dsimp only at h
    rw [Bool.and_eq_true, List.all_eq_true] at h
    exact ⟨fs₀, _, _, hnew,
      run_serveAll qs .start (fun _ _ _ => trivial)
        (fun e he => of_decide_eq_true (h.1 e he)), h.2⟩
  · cases h

/-- Two lookups of `A`, which has the serial number 5, and one reference
given back: the number is refused, though one reference is left. -/
theorem forget_drops_referenced : ∃ fs₀ log fs,
    ISOFuse.new (hostOf (serialBlock 5)) () = .ok fs₀
      ∧ AnyRun (hostOf (serialBlock 5)) fs₀ log fs
      ∧ Restrained log
      ∧ forgotten 5 log < lookups 5 log
      ∧ ISOFuse.getattr (hostOf (serialBlock 5)) fs 5 = .err .EINVAL := by
  obtain ⟨fs₀, log, fs, hnew, hrun, h⟩ := run_session (serialBlock 5)
    [.lookup 1 [0x41], .lookup 1 [0x41], .forget 5 1]
    (fun log fs => decide (Restrained log)
      && (decide (forgotten 5 log < lookups 5 log)
        && decide (ISOFuse.getattr (hostOf (serialBlock 5)) fs 5
          = .err .EINVAL))) (by decide +kernel)
  rw [Bool.and_eq_true, Bool.and_eq_true, decide_eq_true_eq,
    decide_eq_true_eq, decide_eq_true_eq] at h
  exact ⟨fs₀, log, fs, hnew, hrun, h⟩

/-- Both references given back at once, and a third lookup. -/
theorem references_honoured_thrice : ∃ fs₀ log fs,
    ISOFuse.new (hostOf (serialBlock 5)) () = .ok fs₀
      ∧ AnyRun (hostOf (serialBlock 5)) fs₀ log fs
      ∧ lookups 5 log = 3
      ∧ Known (hostOf (serialBlock 5)) fs 5 := by
  obtain ⟨fs₀, log, fs, hnew, hrun, h⟩ := run_session (serialBlock 5)
    [.lookup 1 [0x41], .lookup 1 [0x41], .forget 5 2, .lookup 1 [0x41]]
    (fun log _ => decide (ForgetsAll log)
      && (decide (lookups 5 log = 3) && decide (forgotten 5 log = 2)))
    (by decide +kernel)
  rw [Bool.and_eq_true, Bool.and_eq_true, decide_eq_true_eq,
    decide_eq_true_eq, decide_eq_true_eq] at h
  obtain ⟨hall, hthree, htwo⟩ := h
  exact ⟨fs₀, log, fs, hnew, hrun, hthree,
    (references_honoured_iff hrun).mpr hall log fs (List.suffix_refl _) hrun
      5 (by omega)⟩

end Cdfs
