/-
The same filesystem on two hosts. One may be a debug build, have less
fuel or another kind of image file; a session on it that comes to its
end is a session on the other, reply by reply (`session_agrees`).

A handler reads the image through its state only, and the two states
differ in nothing but the image file (`ISOFuse.Twins`).
-/
import Cdfs.Proofs.BuildAgreement
import Cdfs.Proofs.FileHandles

namespace Cdfs

open Rust Parse Service ISOFuse

variable {t : Stop} {σ σ' : Type} {R : σ → σ' → Prop} {host : Host σ}
  {host' : Host σ'}

-- ================================================ statement vocabulary

/-- The second host is the first one's equal, but for checks that it
lacks, fuel that it has more of and an image file that is related. -/
structure Host.Agrees (t : Stop) (R : σ → σ' → Prop) (host : Host σ)
    (host' : Host σ') : Prop where
  build : host.build.Tightens t host'.build
  reader : ReadsAlike t R host.reader host'.reader
  euid : host.euid = host'.euid
  egid : host.egid = host'.egid
  fuel : FuelUpto t host.fuel host'.fuel

namespace ISOFuse

/-- The same filesystem over another image file. -/
def onFile (fs : ISOFuse σ) (file : σ') : ISOFuse σ' := { fs with file }

/-- Nothing but the image file differs, and that is related. -/
def Twins (R : σ → σ' → Prop) (fs : ISOFuse σ) (fs' : ISOFuse σ') : Prop :=
  ∃ file, R fs.file file ∧ fs' = fs.onFile file

section OnFile

variable (fs : ISOFuse σ) (file : σ')

/-- The table of inodes is not the file's, nor are the open handles. -/
theorem inodes_onFile (ino : ℕ) :
    (fs.onFile file).inodes ino = fs.inodes ino := rfl

theorem openFiles_onFile (fh : ℕ) :
    (fs.onFile file).openFiles fh = fs.openFiles fh := rfl

theorem openDirectories_onFile (fh : ℕ) :
    (fs.onFile file).openDirectories fh = fs.openDirectories fh := rfl

end OnFile

/-- The counters step on the same way over another file, -/
theorem onFile_advance (fs : ISOFuse σ) (file : σ') :
    fs.advance.onFile file = (fs.onFile file).advance := by
  unfold advance
  show _ = if fs.inodeAutogenerated then _ else _
  split
  · rfl
  · rfl

/-- and an entry of a listing is put into the table the same way. -/
theorem onFile_listed (fs : ISOFuse σ) (file : σ') (ino : ℕ)
    (entry : DirectoryEntry) :
    (fs.listed ino entry).onFile file = (fs.onFile file).listed ino entry := by
  unfold listed
  rw [onFile_advance]
  split
  · rfl
  · rfl

/-- Neither of these touches the file itself. -/
theorem file_advance (fs : ISOFuse σ) : fs.advance.file = fs.file := by
  unfold advance
  split
  · rfl
  · rfl

theorem file_listed (fs : ISOFuse σ) (ino : ℕ) (entry : DirectoryEntry) :
    (fs.listed ino entry).file = fs.file := by
  unfold listed
  rw [file_advance]
  split
  · rfl
  · rfl

-- ========================================================== attributes

/-- The attributes of an entry: an overflow check on the size in blocks is
the only thing that can stop them. -/
theorem upto_getFileattr (h : host.Agrees t R host') (ino : ℕ)
    (entry : DirectoryEntry) :
    (getFileattr host ino entry).Upto t (getFileattr host' ino entry) := by
  unfold getFileattr
  rw [h.euid, h.egid]
  refine (upto_addW h.build.overflowChecks _ _ _).bind fun _ => ?_
  exact (upto_subW h.build.overflowChecks _ _ _).bind fun _ => .refl _

/-- `getattr`, which reads nothing. -/
theorem upto_getattr (h : host.Agrees t R host') (fs : ISOFuse σ)
    (file : σ') (ino : ℕ) :
    (getattr host fs ino).Upto t (getattr host' (fs.onFile file) ino) := by
  unfold getattr
  rw [inodes_onFile]
  cases fs.inodes ino with
  | none => exact .refl _
  | some entry => exact (upto_getFileattr h ino entry).bind fun _ => .refl _

-- ============================================================ handlers

/-- `lookup`. Both hosts find the same entry or are told the same error, and
put it under the same number, as the tables and the counters are
equal. -/
theorem lookup_sim (h : host.Agrees t R host') {fs : ISOFuse σ} {file : σ'}
    (hfile : R fs.file file) (parent : ℕ) (name : List UInt8) :
    Sim t (Twins R) (lookup host fs parent name)
      (lookup host' (fs.onFile file) parent name) := by
  have hsame : Twins R fs (fs.onFile file) := ⟨file, hfile, rfl⟩
  unfold lookup
  rw [inodes_onFile]
  cases fs.inodes parent with
  | none => exact .done hsame _
  | some entry =>
      cases entry with
      | file | symlink => exact .done hsame _
      | directory dir =>
          dsimp only
          by_cases hfull : fs.inodeNumber = u64Max
          · have hfull' : (fs.onFile file).inodeNumber = u64Max := hfull
            rw [if_pos hfull, if_pos hfull']
            exact .done hsame _
          have hfree : ¬ (fs.onFile file).inodeNumber = u64Max := hfull
          rw [if_neg hfull, if_neg hfree]
          cases fromUtf8 name with
          | none => exact .done hsame _
          | some name =>
              dsimp only
              rcases (find_sim h.build h.reader h.fuel dir name
                hfile).cases
                with ⟨s₁, h₁⟩ | ⟨found, s₁, s₁', h₁, h₁', hs₁⟩
              · rw [h₁]
                cases t with
                | panic => exact Or.inl rfl
                | running => exact Or.inl rfl
              rw [h₁, show find host'.build host'.reader host'.fuel dir name
                (fs.onFile file).file = _ from h₁']
              have hsame₁ : Twins R { fs with file := s₁ }
                  ({ fs.onFile file with file := s₁' }) := ⟨s₁', hs₁, rfl⟩
              cases found with
              | err | panic | running => exact .done hsame₁ _
              | ok found =>
                  cases found with
                  | none => exact .done hsame₁ _
                  | some entry =>
                      dsimp only
                      rw [show ({ fs.onFile file with file := s₁' } :
                        ISOFuse σ').numberFor entry
                          = ({ fs with file := s₁ } :
                            ISOFuse σ).numberFor entry from rfl]
                      cases ({ fs with file := s₁ } :
                          ISOFuse σ).numberFor entry with
                      | err | panic | running => exact .done hsame₁ _
                      | ok ino =>
                          dsimp only
                          rcases upto_getFileattr h ino entry with h₂ | h₂
                          · rw [h₂]
                            cases t with
                            | panic => exact Or.inl rfl
                            | running => exact Or.inl rfl
                          rw [h₂]
                          cases getFileattr host' ino entry with
                          | err | panic | running => exact .done hsame₁ _
                          | ok attr =>
                              refine .done ⟨s₁', ?_, ?_⟩ _
                              · rw [file_advance]
                                exact hs₁
                              · rw [onFile_advance]
                                rfl

/-- What a read comes to, and the reader behind it. -/
theorem readSought_sim (h : host.Agrees t R host') {fs : ISOFuse σ}
    {file : σ'} (hfile : R fs.file file) (fh : ℕ) (size : UInt32)
    (x : Outcome IoError ℕ) (r : ISOFileReader) :
    Sim t (Twins R) (readSought host fs fh size (x, r))
      (readSought host' (fs.onFile file) fh size (x, r)) := by
  cases x with
  | err | panic | running => exact .done ⟨file, hfile, rfl⟩ _
  | ok =>
      have hread := ISOFileReader.read_sim h.reader r
        (List.replicate size.toNat 0) hfile
      unfold readSought
      dsimp only
      rw [show (fs.onFile file).file = file from rfl]
      generalize r.read host.reader (List.replicate size.toNat 0) fs.file
        = done at hread ⊢
      generalize r.read host'.reader (List.replicate size.toNat 0) file
        = done' at hread ⊢
      obtain ⟨result, r₁, buf, s₁⟩ := done
      obtain ⟨result', r₁', buf', s₁'⟩ := done'
      rcases hread with hstop | ⟨heq, hrest, hs₁⟩
      · left
        rw [show result = t.outcome from hstop]
        cases t with
        | panic => rfl
        | running => rfl
      · right
        cases show result = result' from heq
        cases hrest
        exact ⟨rfl, s₁', hs₁, rfl⟩

/-- `read`: the position is checked, the handle's reader moved there, and
then it is read. -/
theorem read_sim (h : host.Agrees t R host') {fs : ISOFuse σ} {file : σ'}
    (hfile : R fs.file file) (fh : ℕ) (offset : Int64) (size : UInt32) :
    Sim t (Twins R) (read host fs fh offset size)
      (read host' (fs.onFile file) fh offset size) := by
  have hsame : Twins R fs (fs.onFile file) := ⟨file, hfile, rfl⟩
  unfold read
  by_cases hneg : offset.toInt < 0
  · simp only [if_pos hneg]
    exact .done hsame _
  simp only [if_neg hneg]
  rw [openFiles_onFile]
  cases fs.openFiles fh with
  | none => exact .done hsame _
  | some r =>
      dsimp only
      rcases (r.seekTo_sim h.build
        (.start (UInt64.ofNat offset.toInt.toNat))).cases
        with ⟨r₁, h₁⟩ | ⟨x, r₁, _, h₁, h₁', rfl⟩
      · rw [h₁]
        cases t with
        | panic => exact Or.inl rfl
        | running => exact Or.inl rfl
      · rw [h₁, h₁']
        exact readSought_sim h hfile fh size x r₁

/-- The loop of `readdir`. The induction is on the turns left. In each the
next entry is read, and the reply may be full on both sides or on
neither. -/
theorem readdirLoop_sim (h : host.Agrees t R host') (dir : ISODirectory)
    (accepts : Capacity) (turns : ℕ) :
    ∀ (cache : BlockCache) (offset : ℕ) (listing : List Dirent)
      {fs : ISOFuse σ} {file : σ'}, R fs.file file →
      Sim t (Twins R)
        (readdirLoop host dir accepts turns fs cache offset listing)
        (readdirLoop host' dir accepts turns (fs.onFile file) cache offset
          listing) := by
  induction turns with
  | zero => exact fun _ _ _ _ file hfile => .done ⟨file, hfile, rfl⟩ _
  | succ turns ih =>
      intro cache offset listing fs file hfile
      unfold readdirLoop
      by_cases hfull : fs.inodeNumber = u64Max
      · have hfull' : (fs.onFile file).inodeNumber = u64Max := hfull
        rw [if_pos hfull, if_pos hfull']
        exact .done ⟨file, hfile, rfl⟩ _
      have hfree : ¬ (fs.onFile file).inodeNumber = u64Max := hfull
      rw [if_neg hfull, if_neg hfree]
      rcases (readEntryAt_sim h.build h.reader h.fuel dir cache offset
        hfile).cases
        with ⟨⟨cache₁, s₁⟩, h₁⟩
          | ⟨x, ⟨cache₁, s₁⟩, ⟨_, s₁'⟩, h₁, h₁', rfl, hs₁⟩
      · rw [h₁]
        cases t with
        | panic => exact Or.inl rfl
        | running => exact Or.inl rfl
      rw [h₁, show readEntryAt host'.build host'.reader host'.fuel dir cache
        offset (fs.onFile file).file = _ from h₁']
      have hsame : Twins R { fs with file := s₁ }
          ({ fs.onFile file with file := s₁' }) := ⟨s₁', hs₁, rfl⟩
      cases x with
      | err | panic | running => exact .done hsame _
      | ok r =>
          obtain ⟨entry, next⟩ := r
          dsimp only
          by_cases hmoved : entry.relocated = true
          · simp only [if_pos hmoved]
            cases next with
            | none => exact .done hsame _
            | some offset => exact ih cache₁ offset listing hs₁
          simp only [if_neg hmoved]
          cases fuseOffset next with
          | none => exact .done hsame _
          | some cookie =>
              dsimp only
              rw [show ({ fs.onFile file with file := s₁' } :
                ISOFuse σ').numberFor entry
                  = ({ fs with file := s₁ } : ISOFuse σ).numberFor entry
                    from rfl]
              cases ({ fs with file := s₁ } :
                  ISOFuse σ).numberFor entry with
              | err | panic | running => exact .done hsame _
              | ok ino =>
                  dsimp only
                  by_cases hroom : accepts listing
                      (dirent ino cookie entry) = true
                  · simp only [if_pos hroom]
                    have hlisted : R (({ fs with file := s₁ } :
                        ISOFuse σ).listed ino entry).file s₁' := by
                      rw [file_listed]
                      exact hs₁
                    rw [show ({ fs.onFile file with file := s₁' } :
                      ISOFuse σ').listed ino entry
                        = (({ fs with file := s₁ } :
                          ISOFuse σ).listed ino entry).onFile s₁'
                          from (onFile_listed { fs with file := s₁ } s₁' ino
                            entry).symm]
                    cases next with
                    | none => exact .done ⟨s₁', hlisted, rfl⟩ _
                    | some offset => exact ih cache₁ offset _ hlisted
                  · simp only [if_neg hroom]
                    exact .done hsame _

/-- `readdir`, whose checks read nothing. -/
theorem readdir_sim (h : host.Agrees t R host') {fs : ISOFuse σ}
    {file : σ'} (hfile : R fs.file file) (fh : ℕ) (offset : Int64)
    (accepts : Capacity) :
    Sim t (Twins R) (readdir host fs fh offset accepts)
      (readdir host' (fs.onFile file) fh offset accepts) := by
  have hsame : Twins R fs (fs.onFile file) := ⟨file, hfile, rfl⟩
  unfold readdir
  rw [openDirectories_onFile]
  cases fs.openDirectories fh with
  | none => exact .done hsame _
  | some dir =>
      dsimp only
      by_cases hdone : offset = -1
      · simp only [if_pos hdone]
        exact .done hsame _
      simp only [if_neg hdone]
      by_cases hneg : offset.toInt < 0
      · simp only [if_pos hneg]
        exact .done hsame _
      simp only [if_neg hneg]
      exact readdirLoop_sim h dir accepts _ _ _ _ hfile

/-- `open`, which looks at the table only, -/
theorem openFile_sim {fs : ISOFuse σ} {file : σ'} (hfile : R fs.file file)
    (ino : ℕ) :
    Sim t (Twins R) (fs.openFile ino) ((fs.onFile file).openFile ino) := by
  unfold openFile
  rw [inodes_onFile]
  cases fs.inodes ino with
  | none => exact .done ⟨file, hfile, rfl⟩ _
  | some entry =>
      cases entry with
      | directory | symlink => exact .done ⟨file, hfile, rfl⟩ _
      | file f =>
          dsimp only
          by_cases hfull : fs.fileNumber = u64Max
          · have hfull' : (fs.onFile file).fileNumber = u64Max := hfull
            rw [if_pos hfull, if_pos hfull']
            exact .done ⟨file, hfile, rfl⟩ _
          · have hfree : ¬ (fs.onFile file).fileNumber = u64Max := hfull
            rw [if_neg hfull, if_neg hfree]
            exact .done ⟨file, hfile, rfl⟩ _

/-- and `opendir` likewise. -/
theorem opendir_sim {fs : ISOFuse σ} {file : σ'} (hfile : R fs.file file)
    (ino : ℕ) :
    Sim t (Twins R) (fs.opendir ino) ((fs.onFile file).opendir ino) := by
  unfold opendir
  rw [inodes_onFile]
  cases fs.inodes ino with
  | none => exact .done ⟨file, hfile, rfl⟩ _
  | some entry =>
      cases entry with
      | file | symlink => exact .done ⟨file, hfile, rfl⟩ _
      | directory dir =>
          dsimp only
          by_cases hfull : fs.directoryNumber = u64Max
          · have hfull' : (fs.onFile file).directoryNumber = u64Max := hfull
            rw [if_pos hfull, if_pos hfull']
            exact .done ⟨file, hfile, rfl⟩ _
          · have hfree : ¬ (fs.onFile file).directoryNumber = u64Max := hfull
            rw [if_neg hfull, if_neg hfree]
            exact .done ⟨file, hfile, rfl⟩ _

/-- `release` drops a handle, and the file stays as it is, -/
theorem release_sim {fs : ISOFuse σ} {file : σ'} (hfile : R fs.file file)
    (fh : ℕ) :
    Sim t (Twins R) (fs.release fh) ((fs.onFile file).release fh) := by
  unfold release
  rw [openFiles_onFile]
  cases fs.openFiles fh with
  | none => exact .done ⟨file, hfile, rfl⟩ _
  | some => exact .done ⟨file, hfile, rfl⟩ _

/-- and so does `releasedir`. -/
theorem releasedir_sim {fs : ISOFuse σ} {file : σ'} (hfile : R fs.file file)
    (fh : ℕ) :
    Sim t (Twins R) (fs.releasedir fh) ((fs.onFile file).releasedir fh) := by
  unfold releasedir
  rw [openDirectories_onFile]
  cases fs.openDirectories fh with
  | none => exact .done ⟨file, hfile, rfl⟩ _
  | some => exact .done ⟨file, hfile, rfl⟩ _

/-- The handler of a request. -/
theorem serve_sim (h : host.Agrees t R host') {fs : ISOFuse σ} {file : σ'}
    (hfile : R fs.file file) (q : Request) :
    Sim t (Twins R) (fs.serve host q) ((fs.onFile file).serve host' q) := by
  have hsame : Twins R fs (fs.onFile file) := ⟨file, hfile, rfl⟩
  cases q with
  | lookup parent name => exact lookup_sim h hfile parent name
  | forget ino nlookup => exact .done ⟨file, hfile, rfl⟩ _
  | getattr ino => exact .of_upto (upto_getattr h fs file ino) hsame
  | readlink ino => exact .done hsame _
  | getxattr => exact .done hsame _
  | read fh offset size => exact read_sim h hfile fh offset size
  | readdir fh offset accepts => exact readdir_sim h hfile fh offset accepts
  | openFile ino => exact openFile_sim hfile ino
  | release fh => exact release_sim hfile fh
  | opendir ino => exact opendir_sim hfile ino
  | releasedir fh => exact releasedir_sim hfile fh

-- ============================================================== mounting

/-- What `new` comes to: the first host is stopped, both fail alike, or
both have the filesystem mounted. -/
theorem mount_sim (h : host.Agrees t R host') (iso : ISO9660) {s : σ}
    {s' : σ'} (hs : R s s') {fs : ISOFuse σ}
    (hmount : mount host iso s = .ok fs) :
    ∃ file, R fs.file file ∧ mount host' iso s' = .ok (fs.onFile file) := by
  unfold mount at hmount ⊢
  rcases (mainRoot_sim h.build h.reader h.fuel iso hs).cases
    with ⟨s₁, h₁⟩ | ⟨root, s₁, s₁', h₁, h₁', hs₁⟩
  · rw [h₁] at hmount
    cases t with
    | panic => cases hmount
    | running => cases hmount
  rw [h₁] at hmount
  rw [h₁']
  cases root with
  | err | panic | running => cases hmount
  | ok root =>
      dsimp only at hmount ⊢
      rcases next_cases h.build h.reader h.fuel root contents hs₁
        with ⟨it, s₂, h₂⟩ | ⟨x, it, s₂, s₂', h₂, h₂', hs₂⟩
      · rw [h₂] at hmount
        cases t with
        | panic => cases hmount
        | running => cases hmount
      rw [h₂] at hmount
      rw [h₂']
      cases x with
      | none => cases hmount
      | some x =>
          cases x with
          | err | panic | running => cases hmount
          | ok slashdot =>
              dsimp only at hmount ⊢
              rcases (isRr_sim h.build h.reader h.fuel iso hs₂).cases
                with ⟨s₃, h₃⟩ | ⟨rr, s₃, s₃', h₃, h₃', hs₃⟩
              · rw [h₃] at hmount
                cases t with
                | panic => cases hmount
                | running => cases hmount
              rw [h₃] at hmount
              rw [h₃']
              cases rr with
              | err | panic | running => cases hmount
              | ok rr =>
                  cases hmount
                  exact ⟨s₃', hs₃, rfl⟩

/-- `ISOFuse::new`. -/
theorem new_agrees (h : host.Agrees t R host') {s : σ} {s' : σ'}
    (hs : R s s') {fs : ISOFuse σ} (hnew : ISOFuse.new host s = .ok fs) :
    ∃ file, R fs.file file
      ∧ ISOFuse.new host' s' = .ok (fs.onFile file) := by
  unfold ISOFuse.new at hnew ⊢
  rcases (new_sim h.build h.reader h.fuel hs).cases
    with ⟨s₁, h₁⟩ | ⟨iso, s₁, s₁', h₁, h₁', hs₁⟩
  · rw [h₁] at hnew
    cases t with
    | panic => cases hnew
    | running => cases hnew
  rw [h₁] at hnew
  rw [h₁']
  cases iso with
  | err | panic | running => cases hnew
  | ok iso => exact mount_sim h iso hs₁ hnew

end ISOFuse

-- ============================================================== sessions

/-- A session on the first host, from mounting the image on, is a session
on the second: the same requests get the same replies, and all that is
left different is the image file. -/
theorem session_agrees (h : host.Agrees t R host') {s : σ} {s' : σ'}
    (hs : R s s') {fs₀ fs : ISOFuse σ} {log : Log}
    (hnew : ISOFuse.new host s = .ok fs₀) (hrun : AnyRun host fs₀ log fs) :
    ∃ file₀ file, ISOFuse.new host' s' = .ok (fs₀.onFile file₀)
      ∧ AnyRun host' (fs₀.onFile file₀) log (fs.onFile file)
      ∧ R fs.file file := by
  obtain ⟨file₀, hfile₀, hnew'⟩ := new_agrees h hs hnew
  obtain ⟨fs', hrun', file, hfile, rfl⟩ := hrun.simulate (t := t)
    (R := Twins R) (by
      rintro fs _ q ⟨file, hfile, rfl⟩
      exact serve_sim h hfile q) ⟨file₀, hfile₀, rfl⟩
  exact ⟨file₀, file, hnew', hrun', hfile⟩

/-- A host without overflow checks. -/
def releaseHost : Host Unit :=
  { labelHost with build := { quietBuild with overflowChecks := false } }

/-- It is the test host's equal, but that it lacks a check. -/
theorem labelHost_agrees : labelHost.Agrees .panic Eq releaseHost where
  build := ⟨Or.inl rfl, Or.inr ⟨rfl, rfl⟩, rfl, rfl⟩
  reader := .refl .panic labelHost.reader
  euid := rfl
  egid := rfl
  fuel := .refl .panic _

/-- A file is looked up, opened and read on both. -/
theorem session_agrees_label : ∃ fs₀ log fs file₀ file,
    ISOFuse.new labelHost () = .ok fs₀
      ∧ AnyRun labelHost fs₀ log fs ∧ log.length = 3
      ∧ ISOFuse.new releaseHost () = .ok (fs₀.onFile file₀)
      ∧ AnyRun releaseHost (fs₀.onFile file₀) log (fs.onFile file) := by
  have hcheck : labelMount.isOkAnd (fun fs =>
      let run := serveAll (serve labelHost) fs
        [.lookup 1 [0x41], .openFile 2, .read 0 0 6] []
      run.1.all (fun e => decide e.2.Returned)
        && decide (run.1.length = 3)) = true := by
    decide +kernel
  obtain ⟨fs₀, hmount, htests⟩ := Outcome.exists_of_isOkAnd hcheck
  simp only [Bool.and_eq_true, decide_eq_true_eq, List.all_eq_true]
    at htests
  obtain ⟨hreturned, hlen⟩ := htests
  have hrun : AnyRun labelHost fs₀ _ _ :=
    run_serveAll _ .start (fun _ _ _ => trivial) hreturned
  have hnew := new_labelHost.trans hmount
  obtain ⟨file₀, file, hnew', hrun', -⟩ :=
    session_agrees labelHost_agrees (rfl : () = ()) hnew hrun
  exact ⟨fs₀, _, _, file₀, file, hnew, hrun, hlen, hnew', hrun'⟩

end Cdfs
