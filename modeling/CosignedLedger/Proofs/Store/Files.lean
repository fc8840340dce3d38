import CosignedLedger.Proofs.Store.Loading
import CosignedLedger.Proofs.Store.Refinement
import CosignedLedger.Store.Disk

/-!
# Files that are found again

Once the file of a log has been made ready, its path leads to it for good: files are only written
to where there is no folder, so the folders on the way stay. Making it ready again changes nothing,
and a log over it reads the blocks that were appended to it before, by whomever.

* `Disk.Folders`: every folder of one disk is there on another.
* `Disk.Keeps`: a path leads to a file with the given contents, with nothing left to be made.
* `Disk.Keeps.setContents`: it does so after the file has been written to.
* `Disk.Keeps.beside`, `Storage.Open.beside`: it does so after another file has been written to.
* `Disk.Logs`: the file holds the records of some blocks.
* `Disk.Logs.openStore`, `Disk.Logs.appendAll`: what a log makes of it.
-/

namespace CosignedLedger

namespace Disk
variable {d d' : Disk} {location other : Location} {entry : DiskEntry} {text : String}
  {parts : List String}

/-! ### Entries -/

theorem lookup_replaceEntry (location other : Location) (entry : DiskEntry)
    (entries : List (Location × DiskEntry)) :
    (replaceEntry location entry entries).lookup other =
      if other = location then some entry else entries.lookup other := by
  induction entries with
  | nil =>
    by_cases h : other = location
    · simp [replaceEntry, h]
    · have hne : (other == location) = false := by simpa using h
      simp [replaceEntry, List.lookup_cons, hne, h]
  | cons e es ih =>
    rw [replaceEntry]
    by_cases he : e.1 = location
    · rw [if_pos he, List.lookup_cons, List.lookup_cons, he]
      by_cases h : other = location
      · simp [h]
      · have hne : (other == location) = false := by simpa using h
        simp [hne, h]
    · rw [if_neg he, List.lookup_cons, List.lookup_cons, ih]
      by_cases h : other = location
      · have hne : (location == e.1) = false := by simpa using fun heq => he heq.symm
        simp [h, hne]
      · simp [h]

theorem entry?_setEntry_self (d : Disk) (hlocation : location ≠ []) (entry : DiskEntry) :
    Disk.entry? (d.setEntry location entry) location = some entry := by
  unfold entry?
  rw [if_neg hlocation, setEntry, lookup_replaceEntry, if_pos rfl]

theorem entry?_setEntry_of_ne (d : Disk) (hne : other ≠ location) (entry : DiskEntry) :
    Disk.entry? (d.setEntry location entry) other = d.entry? other := by
  unfold entry?
  rw [setEntry, lookup_replaceEntry, if_neg hne]

def Folders (d d' : Disk) : Prop :=
  ∀ location, d.entry? location = some .folder → d'.entry? location = some .folder

theorem folders_setEntry (h : d.entry? location ≠ some .folder) (entry : DiskEntry) :
    d.Folders (d.setEntry location entry) := by
  intro other hother
  have hne : other ≠ location := by
    rintro rfl
    exact h hother
  rw [entry?_setEntry_of_ne d hne, hother]

/-! ### Paths -/

theorem look_eq_ok_iff {folder : Location} {name : String} {found : Option DiskEntry} :
    d.look folder name = .ok found ↔
      name.utf8ByteSize ≤ Path.nameLimit ∧ found = d.entry? (folder ++ [name]) := by
  unfold look
  split
  · rename_i hlong
    constructor
    · nofun
    · rintro ⟨hshort, _⟩
      omega
  · rename_i hshort
    rw [Except.ok.injEq, eq_comm]
    exact ⟨fun h => ⟨by omega, h⟩, fun h => h.2⟩

theorem enter_mono (h : d.Folders d') {folder next : Location} {part : String}
    (hnext : d.enter folder part = .ok next) : d'.enter folder part = .ok next := by
  unfold enter at hnext ⊢
  by_cases hdot : part = "."
  · rwa [if_pos hdot] at hnext ⊢
  · rw [if_neg hdot] at hnext ⊢
    by_cases hup : part = ".."
    · rwa [if_pos hup] at hnext ⊢
    · rw [if_neg hup] at hnext ⊢
      cases hlook : d.look folder part with
      | error fault =>
        rw [hlook] at hnext
        cases hnext
      | ok found =>
        rw [hlook] at hnext
        obtain ⟨hshort, hfound⟩ := look_eq_ok_iff.1 hlook
        cases found with
        | none => cases hnext
        | some entry =>
          cases entry with
          | file contents => cases hnext
          | folder =>
            have hlook' := look_eq_ok_iff.2 ⟨hshort, (h _ hfound.symm).symm⟩
            rwa [hlook']

theorem walk_mono (h : d.Folders d') {folder last : Location}
    (hlast : d.walk folder parts = .ok last) : d'.walk folder parts = .ok last := by
  induction parts generalizing folder with
  | nil => exact hlast
  | cons part parts ih =>
    rw [walk] at hlast ⊢
    cases hnext : d.enter folder part with
    | error fault =>
      rw [hnext] at hlast
      cases hlast
    | ok next =>
      rw [hnext] at hlast
      rw [enter_mono h hnext]
      exact ih hlast

theorem walk_append_singleton (folder : Location) (parts : List String) (part : String)
    {next : Location} (hnext : d.walk folder parts = .ok next) :
    d.walk folder (parts ++ [part]) = d.enter next part := by
  induction parts generalizing folder with
  | nil =>
    cases hnext
    rw [List.nil_append, walk]
    cases d.enter next part with
    | error fault => rfl
    | ok last => rfl
  | cons first parts ih =>
    rw [walk] at hnext
    rw [List.cons_append, walk]
    cases hfirst : d.enter folder first with
    | error fault =>
      rw [hfirst] at hnext
      cases hnext
    | ok inner =>
      rw [hfirst] at hnext
      exact ih inner hnext

theorem approach_eq_ok_iff {folder : Location} {name : Option String} :
    d.approach parts = .ok (folder, name) ↔ d.walk [] parts.dropLast = .ok folder ∧
      name = parts.getLast?.filter fun part => part ≠ "." ∧ part ≠ ".." := by
  unfold approach
  cases d.walk [] parts.dropLast with
  | error fault => simp
  | ok folder' => simp [eq_comm]

theorem approach_mono (h : d.Folders d') {found : Location × Option String}
    (hfound : d.approach parts = .ok found) : d'.approach parts = .ok found := by
  obtain ⟨folder, name⟩ := found
  obtain ⟨hwalk, hname⟩ := approach_eq_ok_iff.1 hfound
  exact approach_eq_ok_iff.2 ⟨walk_mono h hwalk, hname⟩

/-- The path is that of a name in a folder. -/
structure Leads (d : Disk) (text : String) (folder : Location) (name : String) : Prop where
  checked : Path.check text = .ok ()
  approached : d.approach (Path.parts text) = .ok (folder, some name)
  named : Path.endsInSlash text = false
  short : name.utf8ByteSize ≤ Path.nameLimit

namespace Leads
variable {folder : Location} {name : String}

theorem locate (h : d.Leads text folder name) :
    d.locate text = .ok (folder ++ [name], d.entry? (folder ++ [name])) := by
  have hlook : d.look folder name = .ok (d.entry? (folder ++ [name])) :=
    look_eq_ok_iff.2 ⟨h.short, rfl⟩
  simp [Disk.locate, h.checked, h.approached, h.named, hlook]

theorem mono (h : d.Leads text folder name) (hfolders : d.Folders d') :
    d'.Leads text folder name :=
  ⟨h.checked, approach_mono hfolders h.approached, h.named, h.short⟩

end Leads

theorem exists_leads {found : Option DiskEntry} (h : d.locate text = .ok (location, found)) :
    ∃ folder name, d.Leads text folder name ∧ location = folder ++ [name] ∧
      found = d.entry? location := by
  unfold locate at h
  split at h
  · cases h
  · rename_i hchecked
    split at h
    · cases h
    · cases h
    · rename_i folder name happroach
      split at h
      · cases h
      · rename_i hslash
        split at h
        · cases h
        · rename_i entry hlook
          cases h
          obtain ⟨hshort, hentry⟩ := look_eq_ok_iff.1 hlook
          exact ⟨folder, name, ⟨hchecked, happroach, by simpa using hslash, hshort⟩, rfl, hentry⟩

theorem entry?_of_file? {contents : Bytes} (h : d.file? text = some (location, contents)) :
    d.entry? location = some (.file contents) := by
  unfold file? at h
  split at h
  · rename_i hlocated
    cases h
    obtain ⟨_, _, _, _, hentry⟩ := exists_leads hlocated
    exact hentry.symm
  · cases h

/-! ### Files -/

def HasFolderOf (d : Disk) (text : String) : Prop :=
  Path.folder text = "" ∨ Path.check (Path.folder text) = .ok () ∧
    ∃ folder, d.walk [] ((Path.parts (Path.folder text)).filter (· ≠ ".")) = .ok folder

theorem HasFolderOf.mono (h : d.HasFolderOf text) (hfolders : d.Folders d') :
    d'.HasFolderOf text := by
  obtain hempty | ⟨hchecked, folder, hwalk⟩ := h
  · exact .inl hempty
  · exact .inr ⟨hchecked, folder, walk_mono hfolders hwalk⟩

theorem makeFolder_of_walk {folder : Location} (h : d.walk [] parts = .ok folder) :
    d.makeFolder parts = (.ok (), d) := by
  rw [makeFolder, h]

theorem walk_of_makeFolder (h : d.makeFolder parts = (.ok (), d')) :
    ∃ folder, d'.walk [] parts = .ok folder := by
  unfold makeFolder at h
  cases hwalk : d.walk [] parts with
  | ok folder =>
    rw [hwalk] at h
    cases h
    exact ⟨folder, hwalk⟩
  | error fault =>
    rw [hwalk] at h
    rcases happroach : d.approach parts with _ | ⟨folder, _ | name⟩
    · rw [happroach] at h
      cases h
    · rw [happroach] at h
      cases h
    · simp only [happroach] at h
      split at h
      · cases h
      · cases h
      · -- The folder is new, and everything else is as it was.
        rename_i hlook
        cases h
        obtain ⟨hwalk, hname⟩ := approach_eq_ok_iff.1 happroach
        obtain ⟨hshort, hnone⟩ := look_eq_ok_iff.1 hlook
        obtain ⟨hlast, hplain⟩ := Option.filter_eq_some_iff.1 hname.symm
        have hnew : folder ++ [name] ≠ [] := by simp
        have hfolders : d.Folders (d.setEntry (folder ++ [name]) .folder) :=
          folders_setEntry (by rw [← hnone]; nofun) .folder
        have henter : (d.setEntry (folder ++ [name]) .folder).enter folder name =
            .ok (folder ++ [name]) := by
          have hlook' := look_eq_ok_iff.2 ⟨hshort, (entry?_setEntry_self d hnew .folder).symm⟩
          simp only [decide_eq_true_eq] at hplain
          rw [enter, if_neg hplain.1, if_neg hplain.2, hlook']
        obtain ⟨before, rfl⟩ := List.getLast?_eq_some_iff.1 hlast
        rw [List.dropLast_concat] at hwalk
        rw [walk_append_singleton [] before name (walk_mono hfolders hwalk)]
        exact ⟨_, henter⟩

theorem walk_of_makeFolders {count : Nat} (h : makeFolders parts (count + 1) d = (.ok (), d')) :
    ∃ folder, d'.walk [] (parts.take (count + 1)) = .ok folder := by
  rw [makeFolders] at h
  split at h
  · split at h
    · cases h
    · exact walk_of_makeFolder h
  · exact walk_of_makeFolder h

theorem hasFolderOf_of_makeFolderOf (h : d.makeFolderOf text = (.ok (), d')) :
    d'.HasFolderOf text := by
  unfold makeFolderOf at h
  dsimp only at h
  split at h
  · rename_i hempty
    exact .inl hempty
  · split at h
    · cases h
    · rename_i hchecked
      refine .inr ⟨hchecked, ?_⟩
      generalize (Path.parts (Path.folder text)).filter (· ≠ ".") = parts at h
      cases hcount : parts.length with
      | zero =>
        obtain rfl := List.length_eq_zero_iff.1 hcount
        exact ⟨[], rfl⟩
      | succ count =>
        rw [hcount] at h
        have hwalk := walk_of_makeFolders h
        rwa [List.take_of_length_le (by omega)] at hwalk

theorem HasFolderOf.makeFolderOf (h : d.HasFolderOf text) : d.makeFolderOf text = (.ok (), d) := by
  unfold Disk.makeFolderOf
  dsimp only
  obtain hempty | ⟨hchecked, folder, hwalk⟩ := h
  · rw [if_pos hempty]
  · split
    · rfl
    · rw [hchecked]
      dsimp only
      generalize (Path.parts (Path.folder text)).filter (· ≠ ".") = parts at hwalk
      cases hcount : parts.length with
      | zero => rfl
      | succ count =>
        have hmade : d.makeFolder (parts.take (count + 1)) = (.ok (), d) := by
          rw [List.take_of_length_le (by omega)]
          exact makeFolder_of_walk hwalk
        rw [makeFolders, hmade]

/-- The path leads to a file with these contents, and nothing is left to be made for it. -/
structure Keeps (d : Disk) (text : String) (location : Location) (contents : Bytes) : Prop where
  hasFolder : d.HasFolderOf text
  located : d.locate text = .ok (location, some (.file contents))

theorem keeps_setContents {found : Option DiskEntry} (hfolder : d.HasFolderOf text)
    (hlocated : d.locate text = .ok (location, found)) (hfound : found ≠ some .folder)
    (bytes : Bytes) : (d.setContents location bytes).Keeps text location bytes := by
  obtain ⟨folder, name, hleads, rfl, rfl⟩ := exists_leads hlocated
  have hfolders : d.Folders (d.setContents (folder ++ [name]) bytes) :=
    folders_setEntry hfound (.file bytes)
  refine ⟨hfolder.mono hfolders, ?_⟩
  rw [(hleads.mono hfolders).locate, setContents, entry?_setEntry_self d (by simp)]

namespace Keeps
variable {contents : Bytes}

theorem setContents (h : d.Keeps text location contents) (bytes : Bytes) :
    (d.setContents location bytes).Keeps text location bytes :=
  keeps_setContents h.hasFolder h.located nofun bytes

/-- Writing to another file leaves this one where it is. -/
theorem beside (h : d.Keeps text location contents) {old : Bytes}
    (hother : d.entry? other = some (.file old)) (bytes : Bytes) :
    ∃ contents, (d.setContents other bytes).Keeps text location contents := by
  obtain ⟨folder, name, hleads, rfl, hfound⟩ := exists_leads h.located
  have hfolders : d.Folders (d.setContents other bytes) :=
    folders_setEntry (by rw [hother]; nofun) (.file bytes)
  have hlocated := (hleads.mono hfolders).locate
  by_cases hsame : folder ++ [name] = other
  · subst hsame
    rw [Disk.setContents, entry?_setEntry_self d (by simp)] at hlocated
    exact ⟨bytes, h.hasFolder.mono hfolders, hlocated⟩
  · rw [Disk.setContents, entry?_setEntry_of_ne d hsame, ← hfound] at hlocated
    exact ⟨contents, h.hasFolder.mono hfolders, hlocated⟩

theorem openFile (h : d.Keeps text location contents) : d.openFile text = (.ok location, d) := by
  rw [Disk.openFile, h.hasFolder.makeFolderOf]
  dsimp only
  rw [makeFile, h.located]

theorem file?_eq (h : d.Keeps text location contents) : d.file? text = some (location, contents) := by
  rw [file?, h.located]

theorem contents_eq (h : d.Keeps text location contents) : d.contents text = contents := by
  rw [Disk.contents, h.file?_eq]
  rfl

end Keeps

theorem keeps_of_openFile (h : d.openFile text = (.ok location, d')) :
    d'.Keeps text location (d'.contents text) := by
  have hkeeps : ∃ contents, d'.Keeps text location contents := by
    unfold openFile at h
    split at h
    · cases h
    · rename_i made hmade
      have hfolder := hasFolderOf_of_makeFolderOf hmade
      unfold makeFile at h
      split at h
      · cases h
      · cases h
      · rename_i contents hlocated
        cases h
        exact ⟨contents, hfolder, hlocated⟩
      · rename_i hlocated
        cases h
        exact ⟨[], keeps_setContents hfolder hlocated nofun []⟩
  obtain ⟨contents, hkeeps⟩ := hkeeps
  rwa [hkeeps.contents_eq]

/-! ### Logs -/

/-- The path leads to a file with the records of these blocks. -/
def Logs (d : Disk) (path : String) (blocks : List Block) : Prop :=
  ∃ location, d.Keeps path location (Record.ofBlocks blocks)

/-- The limit of the disk, if it has one, leaves room for these blocks. -/
def HasRoom (d : Disk) (blocks : List Block) : Prop :=
  ∀ limit, d.limit = some limit → (Record.ofBlocks blocks).length ≤ limit

end Disk

section
variable {d : Disk} {path : String} {blocks : List Block}

theorem BlockLog.inFile_eq {α : Type} {location : Location} {contents : Bytes}
    (h : d.Keeps path location contents) (action : Bytes → Except StoreError α × Bytes) :
    inFile path action d = ((action contents).1, d.setContents location (action contents).2) := by
  rw [inFile, h.file?_eq]

namespace Disk.Logs

theorem openFile (h : d.Logs path blocks) : ∃ location, d.openFile path = (.ok location, d) := by
  obtain ⟨location, hkeeps⟩ := h
  exact ⟨location, hkeeps.openFile⟩

theorem openStore {store : Store} (h : d.Logs path store.blocks) (hstore : store.Reachable)
    (hfits : ∀ b ∈ store.blocks, Record.Fits b) :
    ∃ d', Ledger.openStore Storage.log (.file path, d) = (.ok store, .file path, d') ∧
      d'.Logs path store.blocks ∧ d'.limit = d.limit := by
  obtain ⟨location, hkeeps⟩ := h
  have hload : BlockLog.loadRecords path (Record.ofBlocks store.blocks ++ []) = _ :=
    BlockLog.loadRecords_ofBlocks hfits Record.split?_nil
  rw [List.append_nil] at hload
  refine ⟨d.setContents location (Record.ofBlocks store.blocks), ?_, ⟨location,
    hkeeps.setContents _⟩, rfl⟩
  simp only [Ledger.openStore, Storage.log, BlockLog.onDisk, BlockLog.inFile_eq hkeeps, hload,
    hstore.replay]

theorem append (h : d.Logs path blocks) {b : Block} (hb : Record.Fits b)
    (hroom : d.HasRoom (blocks ++ [b])) :
    ∃ d', Storage.log.append b (.file path, d) = (.ok (), .file path, d') ∧
      d'.Logs path (blocks ++ [b]) ∧ d'.limit = d.limit := by
  obtain ⟨location, hkeeps⟩ := h
  have happend : BlockLog.appendRecord path (.upTo d.limit) b (Record.ofBlocks blocks) =
      (.ok (), Record.ofBlocks (blocks ++ [b])) := by
    rw [Record.ofBlocks_append]
    refine BlockLog.appendRecord_upTo hb ?_
    rw [← Record.ofBlocks_append]
    exact hroom
  refine ⟨d.setContents location (Record.ofBlocks (blocks ++ [b])), ?_, ⟨location,
    hkeeps.setContents _⟩, rfl⟩
  simp only [Storage.log, BlockLog.onDisk, BlockLog.inFile_eq hkeeps, happend]

theorem appendAll (h : d.Logs path blocks) {more : List Block} (hmore : ∀ b ∈ more, Record.Fits b)
    (hroom : d.HasRoom (blocks ++ more)) :
    ∃ d', Storage.log.appendAll more (.file path, d) = (.ok (), .file path, d') ∧
      d'.Logs path (blocks ++ more) ∧ d'.limit = d.limit := by
  induction more generalizing d blocks with
  | nil =>
    rw [List.append_nil]
    exact ⟨d, rfl, h, rfl⟩
  | cons b more ih =>
    have hsplit : blocks ++ b :: more = blocks ++ [b] ++ more := by simp
    have hfirst : d.HasRoom (blocks ++ [b]) := by
      intro limit hlimit
      have hle := hroom limit hlimit
      rw [hsplit, Record.ofBlocks, List.flatMap_append, List.length_append] at hle
      exact Nat.le_trans (Nat.le_add_right _ _) hle
    obtain ⟨d₁, happend, hlogs₁, hlimit₁⟩ := h.append (hmore b List.mem_cons_self) hfirst
    have hrest : d₁.HasRoom (blocks ++ [b] ++ more) := by
      intro limit hlimit
      rw [← hsplit]
      exact hroom limit (hlimit₁ ▸ hlimit)
    obtain ⟨d₂, hall, hlogs₂, hlimit₂⟩ :=
      ih hlogs₁ (fun b' hb' => hmore b' (List.mem_cons_of_mem b hb')) hrest
    refine ⟨d₂, ?_, hsplit ▸ hlogs₂, hlimit₂.trans hlimit₁⟩
    rw [BlockLog.appendAll, happend]
    exact hall

end Disk.Logs

/-- The log of a storage takes blocks: it is in memory, it has room left, or its file is ready. -/
def Storage.Open (d : Disk) : Storage → Prop
  | memory _ => True
  | failing room => 0 < room
  | file path => ∃ location contents, d.Keeps path location contents

namespace Storage
variable {s t : Storage} {b : Block}

theorem Open.append (h : s.Open d) (hlimit : d.limit = none) (hb : Record.Fits b) :
    (log.append b (s, d)).1 = .ok () := by
  cases s with
  | memory stored => rfl
  | failing room =>
    obtain ⟨left, rfl⟩ := Nat.exists_eq_succ_of_ne_zero (Nat.ne_of_gt h)
    rfl
  | file path =>
    obtain ⟨location, contents, hkeeps⟩ := h
    have happend : BlockLog.appendRecord path (.upTo none) b contents = (.ok (), _) :=
      BlockLog.appendRecord_upTo hb nofun
    simp only [log, BlockLog.onDisk, BlockLog.inFile_eq hkeeps, hlimit, happend]

theorem Open.beside (h : s.Open d) (b : Block) (t : Storage) :
    s.Open (log.append b (t, d)).2.2 ∧ (log.append b (t, d)).2.2.limit = d.limit := by
  cases t with
  | memory stored => exact ⟨h, rfl⟩
  | failing room => exact ⟨h, rfl⟩
  | file other =>
    have hdisk : (log.append b (.file other, d)).2.2 =
        (BlockLog.inFile other (BlockLog.appendRecord other (.upTo d.limit) b) d).2 := rfl
    rw [hdisk, BlockLog.inFile]
    split
    · exact ⟨h, rfl⟩
    · rename_i location old hfile
      refine ⟨?_, rfl⟩
      cases s with
      | memory stored => trivial
      | failing room => exact h
      | file path =>
        obtain ⟨kept, contents, hkeeps⟩ := h
        exact ⟨kept, hkeeps.beside (Disk.entry?_of_file? hfile)
          (BlockLog.appendRecord other (.upTo d.limit) b old).2⟩

end Storage

theorem Storage.appendAll_memory (stored more : List Block) (d : Disk) :
    Storage.log.appendAll more (.memory stored, d) = (.ok (), .memory (stored ++ more), d) := by
  induction more generalizing stored with
  | nil => rw [List.append_nil, BlockLog.appendAll]
  | cons b more ih =>
    have hsplit : stored ++ b :: more = stored ++ [b] ++ more := by simp
    rw [hsplit]
    exact ih (stored ++ [b])

end

end CosignedLedger
