/-
Sessions over a volume, with numbers from the counter.

By `session_history` a session is a history of the server of the tree, so
one ledger accounts for it (`session_ledger`). What a client got under a
number that names have led it to is what `ISO9660::open` finds on the
path of these names, whatever was asked, forgotten or released in
between (`led_opens`). And a client that walks along a path comes to what
is there, and can read it (`session_reads`).
-/
import Cdfs.Proofs.Answered
import Cdfs.Proofs.RootSelection
import Cdfs.Proofs.ServedTree

namespace Cdfs

open Rust Parse Numbering Service ISOFuse

variable {σ : Type} {host : Host σ} {src : Source} {image : List UInt8}
  {fs₀ fs : ISOFuse σ} {log : Log} {s : σ} {tree : Tree}

-- ============================================================ the ledger

/-- Behind a mount with a counter there is a ledger for every run. -/
theorem exists_ledger (hserve : host.reader.Serves src)
    (hsrc : src.Holds image) (hfuel : 2 ^ 27 ≤ host.fuel)
    (hmounted : Mounted host.build host.reader src host.fuel image s tree)
    (hnew : ISOFuse.new host s = .ok fs₀)
    (hgen : fs₀.inodeAutogenerated = true)
    (hrun : Run (ISOFuse.serve host)
      (Positioned host.build src host.fuel) fs₀ log fs) :
    ∃ (m : Ledger) (d : Desk),
      m.nodes FUSE_ROOT_ID = some (.folder tree [])
        ∧ (∀ e ∈ log, m.Holds e.1 e.2) ∧ m.Covers d
        ∧ Represents host.build src host.fuel image d fs := by
  obtain ⟨d, hhistory, hrepresents⟩ :=
    (new_represents hmounted hnew).history hserve hsrc hfuel hrun
  rw [hgen] at hhistory
  obtain ⟨m, hroot, hlog, hcovers⟩ := history_ledger hhistory
  exact ⟨m, d, hroot, hlog, hcovers, hrepresents⟩

/-- One ledger for a session: every answer is right by it, and what is in
the inode table stands for its place in it. -/
theorem session_ledger (hserve : host.reader.Serves src)
    (hsrc : src.Holds image) (hfuel : 2 ^ 27 ≤ host.fuel)
    (hmounted : Mounted host.build host.reader src host.fuel image s tree)
    (hnew : ISOFuse.new host s = .ok fs₀)
    (hgen : fs₀.inodeAutogenerated = true)
    (hrun : Run (ISOFuse.serve host)
      (Positioned host.build src host.fuel) fs₀ log fs) :
    ∃ m : Ledger, m.nodes FUSE_ROOT_ID = some (.folder tree [])
      ∧ (∀ e ∈ log, m.Holds e.1 e.2)
      ∧ ∀ n entry, fs.inodes n = some entry →
        ∃ p, m.nodes n = some p
          ∧ Stands host.build src host.fuel image p entry := by
  obtain ⟨m, d, hroot, hlog, hcovers, hrepresents⟩ :=
    exists_ledger hserve hsrc hfuel hmounted hnew hgen hrun
  refine ⟨m, hroot, hlog, ?_⟩
  intro n entry hentry
  obtain ⟨p, hp, hstands⟩ := hrepresents.node hentry
  exact ⟨p, hcovers.nodes.bound _ _ hp, hstands⟩

-- ====================================================== names and paths

/-- What was told under a number, beside the entry that `open` finds. -/
structure TellsOf (log : Log) (image : List UInt8) (n : ℕ)
    (entry : DirectoryEntry) : Prop where
  getattr : ∀ attr, (.getattr n, .ok (.attr attr)) ∈ log →
    attr.kind = entryToFiletype entry
  read : ∀ fh offset size data, (.openFile n, .ok (.opened fh)) ∈ log →
    (.read fh offset size, .ok (.data data)) ∈ log →
    ∃ file, entry = .file file
      ∧ data = ((bytesOf image file).drop offset.toInt.toNat).take
        size.toNat
  readlink : ∀ data, (.readlink n, .ok (.data data)) ∈ log →
    ∃ link target, entry = .symlink link ∧ link.target = some target
      ∧ data = asBytes target

theorem tellsOf_stands {m : Ledger} (hlog : ∀ e ∈ log, m.Holds e.1 e.2)
    {b : Build} {fuel n : ℕ} {p : Spot} {entry : DirectoryEntry}
    (hp : m.nodes n = some p) (hstands : Stands b src fuel image p entry) :
    TellsOf log image n entry where
  getattr attr hmem := by
    cases hlog _ hmem with
    | getattr hp' hattr _ =>
        cases hp.symm.trans hp'
        exact hattr.kind.trans hstands.filetype.symm
  read fh offset size data hopen hread := by
    cases hlog _ hopen with
    | openFile hp' hfile =>
        cases hp.symm.trans hp'
        cases hlog _ hread with
        | read hfile' =>
            cases hfile.symm.trans hfile'
            cases hstands with
            | leaf hcontent =>
                cases hcontent
                exact ⟨_, rfl, rfl⟩
  readlink data hmem := by
    cases hlog _ hmem with
    | readlink hp' =>
        have hsame := hp.symm.trans hp'
        cases hstands with
        | folder => cases hsame
        | leaf hcontent =>
            cases hcontent with
            | file => cases hsame
            | link link =>
                injection hsame with hsame
                injection hsame with hsame
                injection hsame with htarget
                exact ⟨link, _, rfl, htarget, rfl⟩

/-- What names have led to in a session is what `open` finds on a path of
these names, and what was not found there it does not find. -/
theorem led_opens (hserve : host.reader.Serves src)
    (hsrc : src.Holds image) (hfuel : 2 ^ 27 ≤ host.fuel)
    {iso : ISO9660} {s' : σ} {root : ISODirectory}
    (hiso : ISO9660.new host.build host.reader host.fuel s = (.ok iso, s'))
    (hroot : (iso.mainRoot host.build host.reader host.fuel s').1 = .ok root)
    (hfolder : IsFolder host.build src host.fuel image tree [] root)
    (hnew : ISOFuse.new host s = .ok fs₀)
    (hgen : fs₀.inodeAutogenerated = true)
    (hrun : Run (ISOFuse.serve host)
      (Positioned host.build src host.fuel) fs₀ log fs)
    {n : ℕ} {names : List String} (hled : Led log n names) :
    (∀ path, segments path = names →
      ∃ entry, (iso.openPath host.build host.reader host.fuel path s').1
          = .ok (some entry) ∧ TellsOf log image n entry)
      ∧ ∀ name text path, fromUtf8 name = some text →
        (.lookup n name, .err .ENOENT) ∈ log →
        segments path = names ++ [text] →
        (iso.openPath host.build host.reader host.fuel path s').1
          = .ok none := by
  obtain ⟨m, d, htop, hlog, -, -⟩ := exists_ledger hserve hsrc hfuel
    ⟨iso, s', root, hiso, hroot, hfolder⟩ hnew hgen hrun
  obtain ⟨p, hp, hdestination⟩ := hled.place htop hlog
  constructor
  · intro path hpath
    obtain ⟨found, hfound, hrel⟩ := findRecursive_stands hserve hfuel hfolder
      path (iso.mainRoot host.build host.reader host.fuel s').2
    rw [← destination_segments, hpath, hdestination] at hrel
    rw [openPath_of_mainRoot hroot]
    cases hrel with
    | some hstands => exact ⟨_, hfound, tellsOf_stands hlog hp hstands⟩
  · intro name text path htext hmem hpath
    obtain ⟨found, hfound, hrel⟩ := findRecursive_stands hserve hfuel hfolder
      path (iso.mainRoot host.build host.reader host.fuel s').2
    cases hlog _ hmem with
    | lookup_missing htext' hp' hgo =>
        cases htext.symm.trans htext'
        cases hp.symm.trans hp'
        rw [← destination_segments, hpath, destination_concat, hdestination,
          Option.bind_some, hgo] at hrel
        rw [openPath_of_mainRoot hroot]
        cases hrel
        exact hfound
    | refused he => exact absurd rfl he

-- ========================================================= walking there

/-- The blocks of a folder were counted when it was listed. -/
theorem countable_of_entryAt {b : Build} {fuel offset : ℕ}
    {dir : ISODirectory} {r : DirectoryEntry × Option ℕ}
    (h : entryAt b src fuel dir offset = .ok r) : CountFits b dir := by
  have hentry := h
  rw [entryAt_eq] at hentry
  obtain ⟨⟨block, header, identifier, area⟩, hparse, -⟩ :=
    Outcome.bind_eq_ok.mp hentry
  rw [entryAt_of_parse hparse] at h
  obtain ⟨susp, -, h⟩ := Outcome.bind_eq_ok.mp h
  have hcon : Conclusion b dir header identifier susp
      (concluded b dir block offset header identifier susp) :=
    concluded_cases dir block offset
  rw [h] at hcon
  cases hcon with
  | built _ _ hcount => exact hcount

theorem folder_countable {here : Tree} {above : List Tree}
    {entry : DirectoryEntry}
    (h : Stands host.build src host.fuel image (.folder here above) entry) :
    Countable host entry := by
  have hlists : ∀ {dir parent : ISODirectory} {entries : List DirectoryEntry},
      Lists host.build src host.fuel dir parent entries →
      CountFits host.build dir := by
    rintro dir parent entries ⟨own, up, hcatalog⟩
    obtain ⟨_, _, -, hentry, -⟩ := hcatalog.yields.uncons
    exact countable_of_entryAt hentry
  cases h with
  | folder hfolder =>
      cases hfolder with
      | top hlisted => exact hlists hlisted
      | sub _ hlisted => exact hlists hlisted

/-- Those of a file are, if it is not too long. -/
theorem file_countable {bytes : List UInt8} {entry : DirectoryEntry}
    (h : Stands host.build src host.fuel image (.leaf (.file bytes)) entry)
    (hfits : host.build.overflowChecks = true →
      bytes.length + BLOCK_SIZE < 2 ^ 32) : Countable host entry := by
  cases h with
  | leaf hcontent =>
      cases hcontent with
      | file hinside =>
          intro hon
          have hlength := hfits hon
          rw [length_bytesOf hinside] at hlength
          exact hlength

/-- Where a name leads in a folder, looking it up is answered with the
next number. -/
theorem lookup_leads (hserve : host.reader.Serves src)
    (hfuel : 2 ^ 27 ≤ host.fuel) {d : Desk}
    (h : Represents host.build src host.fuel image d fs)
    (hgen : d.nodes.generated = true)
    {parent : ℕ} {p q : Spot} {name : String}
    (hcount : ∀ entry, Stands host.build src host.fuel image q entry →
      Countable host entry)
    (hbound : d.nodes.bound parent = some p) (hgo : p.enter name = some q)
    (hnext : d.nodes.next ≠ u64Max) :
    ∃ attr, (fs.serve host (.lookup parent (asBytes name))).1
        = .ok (.entry attr)
      ∧ attr.ino = d.nodes.next
      ∧ Represents host.build src host.fuel image
        { d with nodes := (d.nodes.insert d.nodes.next q).advance }
        (fs.serve host (.lookup parent (asBytes name))).2 := by
  have htext : fromUtf8 (asBytes name) = some name := fromUtf8_asBytes name
  cases p with
  | leaf content => cases hgo
  | folder here above =>
  have hfinds (dir : ISODirectory) (text : String)
      (hdir : fs.inodes parent = some (.directory dir)) :
      ∃ found, (find host.build host.reader host.fuel dir text fs.file).1
          = .ok found
        ∧ Option.Rel (Stands host.build src host.fuel image)
          (Spot.enter (.folder here above) text) found := by
    obtain ⟨here', above', hplace, hfolder⟩ := h.folder hdir
    cases hbound.symm.trans hplace
    exact find_stands hserve hfuel hfolder text fs.file
  have hret : (lookup host fs parent (asBytes name)).1.Returned := by
    refine (lookup_answered ?_).mpr ?_
    · intro dir text hdir _
      obtain ⟨found, hfind, -⟩ := hfinds dir text hdir
      rw [hfind]
      trivial
    · intro dir hdir _
      obtain ⟨found, hfind, hrel⟩ := hfinds dir name hdir
      rw [hgo] at hrel
      have hauto : fs.inodeAutogenerated = true :=
        h.nodes.generated.symm.trans hgen
      refine ⟨name, htext, fun entry hcall => ⟨fun howned => ?_, ?_⟩⟩
      · rw [hauto] at howned
        cases howned
      · obtain rfl := Outcome.ok.inj (hfind.symm.trans hcall)
        cases hrel with
        | some hstands => exact hcount entry hstands
  obtain ⟨d', hanswers, h'⟩ := lookup_answers hserve hfuel h parent
    (asBytes name) hret
  obtain ⟨attr, hanswer, hino, rfl⟩ :=
    hanswers.entry_of hgen hbound htext hgo hnext
  exact ⟨attr, hanswer, hino, h'⟩

/-- Looking up the names of a path one after the other leads to its end. -/
theorem exists_walk (hserve : host.reader.Serves src) (hfuel : 2 ^ 27 ≤ host.fuel)
    (hfs : Represents host.build src host.fuel image (Desk.mounted tree true)
      fs₀) (names : List String) :
    ∀ {q : Spot}, destination tree names = some q →
      (∀ entry, Stands host.build src host.fuel image q entry →
        Countable host entry) →
      names.length + 2 < 2 ^ 64 →
      ∃ log fs n nodes, Run (ISOFuse.serve host)
          (Positioned host.build src host.fuel) fs₀ log fs
        ∧ Led log n names
        ∧ Represents host.build src host.fuel image
          { Desk.mounted tree true with nodes } fs
        ∧ nodes.generated = true ∧ nodes.next = names.length + 2
        ∧ nodes.bound n = some q := by
  induction names using List.reverseRecOn with
  | nil =>
      intro q hq _ _
      cases hq
      exact ⟨[], fs₀, FUSE_ROOT_ID, _, .start, .root, hfs, rfl, rfl,
        Desk.mounted_root tree true⟩
  | append_singleton names name ih =>
      intro q hq hcount hlength
      rw [destination_concat] at hq
      obtain ⟨p, hp, hgo⟩ := Option.bind_eq_some_iff.mp hq
      have hfolder : ∀ entry, Stands host.build src host.fuel image p entry →
          Countable host entry := by
        cases p with
        | leaf content => cases hgo
        | folder here above => exact fun entry => folder_countable
      rw [List.length_append, List.length_singleton] at hlength ⊢
      obtain ⟨log, fs, n, nodes, hrun, hled, h, hgen, hnext, hbound⟩ :=
        ih hp hfolder (by omega)
      have hroom : nodes.next ≠ u64Max := by
        unfold u64Max
        omega
      obtain ⟨attr, hanswer, hino, h'⟩ := lookup_leads hserve hfuel h hgen
        hcount hbound hgo hroom
      have hret : (fs.serve host (.lookup n (asBytes name))).1.Returned := by
        rw [hanswer]
        trivial
      have hrun' := hrun.serve (Request.lookup n (asBytes name)) trivial hret
      rw [hanswer] at hrun'
      refine ⟨_, _, attr.ino, _, hrun', ?_, h',
        (Table.generated_advance _).trans hgen, ?_, ?_⟩
      · exact (hled.mono fun _ he => List.mem_cons_of_mem _ he).lookup
          (fromUtf8_asBytes name) List.mem_cons_self
      · rw [Table.next_advance (t := nodes.insert nodes.next q) hgen]
        show nodes.next + 1 = _
        omega
      · rw [hino, Table.bound_advance]
        exact Table.bound_insert _ _ _

/-- Behind a walk to a file, opening it and reading gives its bytes. -/
theorem exists_reading (hserve : host.reader.Serves src)
    (hsrc : src.Holds image) (hfuel : 2 ^ 27 ≤ host.fuel)
    (hfs : Represents host.build src host.fuel image (Desk.mounted tree true)
      fs₀) {names : List String} {bytes : List UInt8}
    (hfile : destination tree names = some (.leaf (.file bytes)))
    (hfits : host.build.overflowChecks = true →
      bytes.length + BLOCK_SIZE < 2 ^ 32)
    (hlength : names.length + 2 < 2 ^ 64) (offset : Int64) (size : UInt32)
    (hpos : 0 ≤ offset.toInt) :
    ∃ log fs n fh, Run (ISOFuse.serve host)
        (Positioned host.build src host.fuel) fs₀ log fs
      ∧ Led log n names ∧ (.openFile n, .ok (.opened fh)) ∈ log
      ∧ (.read fh offset size, .ok (.data ((bytes.drop
        offset.toInt.toNat).take size.toNat))) ∈ log := by
  obtain ⟨log, fs, n, nodes, hrun, hled, h, -, -, hbound⟩ :=
    exists_walk hserve hfuel hfs names hfile
      (fun _ hstands => file_countable hstands hfits) hlength
  -- the open file
  obtain ⟨d₁, hopen, h₁⟩ := openFile_answers h n
  obtain ⟨hanswer₁, hbytes⟩ := hopen.opened_of hbound
    (show 0 ≠ u64Max by decide)
  have hret₁ : (fs.serve host (.openFile n)).1.Returned := by
    show (fs.openFile n).1.Returned
    rw [hanswer₁]
    trivial
  have hrun₁ := hrun.serve (Request.openFile n) trivial hret₁
  rw [show (fs.serve host (.openFile n)).1 = .ok (.opened 0) from hanswer₁]
    at hrun₁
  -- the bytes read
  obtain ⟨hread, -⟩ := read_answers (servesImage_of_holds hserve hsrc) h₁ 0
    offset size
  have hanswer₂ : ((fs.serve host (.openFile n)).2.serve host
      (.read 0 offset size)).1 = .ok (.data ((bytes.drop
        offset.toInt.toNat).take size.toNat)) :=
    hread.data_of hbytes hpos
  have hrun₂ := hrun₁.serve (Request.read 0 offset size) trivial
    (by rw [hanswer₂]; trivial)
  rw [hanswer₂] at hrun₂
  refine ⟨_, _, n, 0, hrun₂, ?_, ?_, List.mem_cons_self⟩
  · exact hled.mono fun _ he =>
      List.mem_cons_of_mem _ (List.mem_cons_of_mem _ he)
  · exact List.mem_cons_of_mem _ List.mem_cons_self

/-- A session can read every file of the tree, under the path to it. Where
overflow is checked the file is not one of the very longest. -/
theorem session_reads (hserve : host.reader.Serves src)
    (hsrc : src.Holds image) (hfuel : 2 ^ 27 ≤ host.fuel)
    (hmounted : Mounted host.build host.reader src host.fuel image s tree)
    (hnew : ISOFuse.new host s = .ok fs₀)
    (hgen : fs₀.inodeAutogenerated = true)
    {path : String} {bytes : List UInt8}
    (hfile : resolve path (.folder tree []) = some (.leaf (.file bytes)))
    (hfits : host.build.overflowChecks = true →
      bytes.length + BLOCK_SIZE < 2 ^ 32)
    (hlength : (segments path).length + 2 < 2 ^ 64) (offset : Int64)
    (size : UInt32) (hpos : 0 ≤ offset.toInt) :
    ∃ log fs n fh, Run (ISOFuse.serve host)
        (Positioned host.build src host.fuel) fs₀ log fs
      ∧ Led log n (segments path) ∧ (.openFile n, .ok (.opened fh)) ∈ log
      ∧ (.read fh offset size, .ok (.data ((bytes.drop
        offset.toInt.toNat).take size.toNat))) ∈ log := by
  have hfs := new_represents hmounted hnew
  rw [hgen] at hfs
  exact exists_reading hserve hsrc hfuel hfs
    ((destination_segments tree path).trans hfile) hfits hlength offset size hpos

-- ========================================================= a written disc

theorem inode_of_anonymous {entry : DirectoryEntry}
    (h : entry.ext.attributes = none) : entry.inode = none := by
  unfold DirectoryEntry.inode
  rw [h]

/-- A written disc is mounted as it is, with numbers from the counter:
its records have no numbers of their own. -/
theorem Disc.mounts {R : Recording} (d : Disc R)
    (hserve : host.reader.Serves src)
    (hsrc : src.Holds d.image) (hfuel : 2 ≤ host.fuel) (s : σ) :
    ∃ file, ISOFuse.new host s
      = .ok (ISOFuse.mounted file d.rootDirectory true) := by
  obtain ⟨s', hiso⟩ := d.new_eq (b := host.build) hserve hsrc hfuel s
  obtain ⟨next, hentry⟩ := d.first_entry (b := host.build) hsrc host.fuel
  have hroot := d.mainRoot_iso (b := host.build) hserve hsrc host.fuel s'
  rw [new_of_parsed hiso]
  unfold mount
  rcases hcall : d.iso.mainRoot host.build host.reader host.fuel s'
    with ⟨r, s₁⟩
  rw [hcall] at hroot
  obtain rfl : r = .ok d.rootDirectory := hroot
  have hco : Coherent src d.rootDirectory contents.cache :=
    coherent_new src d.rootDirectory
  obtain ⟨it, s₂, hnext, -⟩ := next_takes hserve hco rfl hentry s₁
  have hrr := isRr_serves (b := host.build) hserve host.fuel d.iso s₂
  rw [show d.iso.root = d.rootDirectory from rfl, hentry] at hrr
  dsimp only
  rw [hnext]
  dsimp only
  rcases hcall' : d.iso.isRr host.build host.reader host.fuel s₂
    with ⟨rr, s₃⟩
  rw [hcall'] at hrr
  obtain rfl : rr = .ok _ := hrr
  have hnumberless : ((⟨.own true, d.root⟩ : Item R).entry d.time).inode
      = none :=
    inode_of_anonymous (R.anonymous true).2
  refine ⟨s₃, ?_⟩
  dsimp only
  rw [hnumberless, Option.isSome_none, Bool.and_false, Bool.not_false]

/-- The host of a small disc. -/
def smallHost : Host ℕ where
  build := debugBuild
  reader := (cursor smallDisc.image).reader debugBuild
  euid := 0
  egid := 0
  fuel := 2 ^ 27

theorem smallHost_serves : smallHost.reader.Serves
    (cursorSource debugBuild smallDisc.image) :=
  cursor_serves debugBuild _

theorem smallHost_holds :
    (cursorSource debugBuild smallDisc.image).Holds smallDisc.image :=
  cursorSource_holds debugBuild _

/-- A session of the small disc that reads its file, by names. -/
theorem small_session : ∃ fs₀ log fs n fh,
    ISOFuse.new smallHost 0 = .ok fs₀ ∧ fs₀.inodeAutogenerated = true
      ∧ Run (ISOFuse.serve smallHost) (Positioned debugBuild
        (cursorSource debugBuild smallDisc.image) (2 ^ 27)) fs₀ log fs
      ∧ Led log n ["NOTES", "Todo.txt"]
      ∧ (.openFile n, .ok (.opened fh)) ∈ log
      ∧ (.read fh 1 100, .ok (.data [0x69])) ∈ log := by
  obtain ⟨file, hnew⟩ := smallDisc.mounts smallHost_serves smallHost_holds
    (by decide) 0
  have hfs := new_represents (smallDisc.mounted smallHost_serves
    smallHost_holds (by decide) 0) hnew
  have hfile : destination smallDisc.files.tree ["NOTES", "Todo.txt"]
      = some (.leaf (.file [0x68, 0x69])) := rfl
  obtain ⟨log, fs, n, fh, hrun, hled, hopen, hread⟩ :=
    exists_reading smallHost_serves smallHost_holds le_rfl hfs
      hfile (fun _ => by decide) (by decide) 1 100 (by decide)
  exact ⟨_, log, fs, n, fh, hnew, rfl, hrun, hled, hopen, hread⟩

theorem smallHost_mounted : Mounted debugBuild smallHost.reader
    (cursorSource debugBuild smallDisc.image) smallHost.fuel
    smallDisc.image 0 smallDisc.files.tree :=
  smallDisc.mounted smallHost_serves smallHost_holds (by decide) 0

theorem small_history : ∃ fs₀ log d n fh, ISOFuse.new smallHost 0 = .ok fs₀
    ∧ (.openFile n, .ok (.opened fh)) ∈ log
    ∧ History Answers
      (Desk.mounted smallDisc.files.tree fs₀.inodeAutogenerated) log d := by
  obtain ⟨fs₀, log, fs, n, fh, hnew, -, hrun, -, hopen, -⟩ := small_session
  obtain ⟨d, hhistory, -⟩ := session_history smallHost_serves smallHost_holds
    le_rfl smallHost_mounted hnew hrun
  exact ⟨fs₀, log, d, n, fh, hnew, hopen, hhistory⟩

theorem small_ledger : ∃ (m : Ledger) (log : Log) (n fh : ℕ),
    Led log n ["NOTES", "Todo.txt"] ∧ (.openFile n, .ok (.opened fh)) ∈ log
      ∧ ∀ e ∈ log, m.Holds e.1 e.2 := by
  obtain ⟨fs₀, log, fs, n, fh, hnew, hgen, hrun, hled, hopen, -⟩ :=
    small_session
  obtain ⟨m, -, hlog, -⟩ := session_ledger smallHost_serves smallHost_holds
    le_rfl smallHost_mounted hnew hgen hrun
  exact ⟨m, log, n, fh, hled, hopen, hlog⟩

theorem small_opens : ∃ s log n entry,
    (smallDisc.iso.openPath debugBuild smallHost.reader smallHost.fuel
        "/NOTES//Todo.txt" s).1 = .ok (some entry)
      ∧ Led log n ["NOTES", "Todo.txt"]
      ∧ TellsOf log smallDisc.image n entry := by
  obtain ⟨fs₀, log, fs, n, fh, hnew, hgen, hrun, hled, -⟩ := small_session
  obtain ⟨s, hiso⟩ := smallDisc.new_eq (b := smallHost.build)
    smallHost_serves smallHost_holds (show 2 ≤ smallHost.fuel by decide) 0
  obtain ⟨hopens, -⟩ := led_opens smallHost_serves smallHost_holds le_rfl
    hiso (smallDisc.mainRoot_iso smallHost_serves smallHost_holds _ s)
    (smallDisc.isFolder smallHost_holds _) hnew hgen hrun hled
  obtain ⟨entry, hopen, htells⟩ := hopens "/NOTES//Todo.txt" (by decide)
  exact ⟨s, log, n, entry, hopen, hled, htells⟩

/-- The first byte is passed over, and the file ends before the hundredth. -/
theorem small_reads : ∃ fs₀ log fs n fh, ISOFuse.new smallHost 0 = .ok fs₀
    ∧ Run (ISOFuse.serve smallHost) (Positioned debugBuild
      (cursorSource debugBuild smallDisc.image) (2 ^ 27)) fs₀ log fs
    ∧ Led log n (segments "notes//TODO.TXT")
    ∧ (.openFile n, .ok (.opened fh)) ∈ log
    ∧ (.read fh 1 100, .ok (.data [0x69])) ∈ log := by
  obtain ⟨file, hnew⟩ := smallDisc.mounts smallHost_serves smallHost_holds
    (by decide) 0
  have hfile : resolve "notes//TODO.TXT" (.folder smallDisc.files.tree [])
      = some (.leaf (.file [0x68, 0x69])) := rfl
  obtain ⟨log, fs, n, fh, hrun, hled, hopen, hread⟩ :=
    session_reads smallHost_serves smallHost_holds le_rfl smallHost_mounted
      hnew rfl hfile (fun _ => by decide) (by decide) 1 100 (by decide)
  exact ⟨_, log, fs, n, fh, hnew, hrun, hled, hopen, hread⟩

end Cdfs
