import CosignedLedger.Proofs.Rehearsal.Report

/-!
# Rehearsals one after the other

With a seed and a data folder, a rehearsal goes on where the ones before it have stopped. Its
leader makes the blocks of the earlier rehearsals again, since the epochs that they share have the
same members and sign the same, and its late node finds them in the file.

* `Rehearsal.Course.isPrefix`: fewer blocks are the first ones of more blocks.
* `Rehearsal.stages_gives`: a rehearsal reports what its late node has taken, wherever that keeps
  its blocks.
* `Rehearsal.run_resumes`: a rehearsal whose late node finds the first blocks in its file.
* `Rehearsal.Series.playAll_resumes`: any number of rehearsals, from an empty file on.
-/

namespace CosignedLedger

def Settings.inMemory (s : Settings) : Settings :=
  { s with node := { s.node with dataFolder := none } }

namespace Rehearsal
variable {Key : Type} {scheme : Scheme Key} {entropy entropy' : Nat → Nat → Bytes} {seed : UInt64}
  {s s' : Settings} {all all' : List (Team Key)} {blocks blocks' : List Block}

/-! ### The same blocks again -/

/-- What decides the members of every epoch, and when an epoch ends. -/
structure Alike (seed : UInt64) (s s' : Settings) : Prop where
  seeded : s.seed = some seed
  seeded' : s'.seed = some seed
  nodes : s.nodes = s'.nodes
  rotation : s.rotation = s'.rotation

theorem alike_inMemory (h : s.seed = some seed) : Alike seed s s.inMemory := ⟨h, h, rfl, rfl⟩

namespace Alike

theorem team_eq (h : Alike seed s s') (entropy entropy' : Nat → Nat → Bytes) (epoch : Nat) :
    team scheme entropy s epoch = team scheme entropy' s' epoch := by
  simp only [team, h.seeded, h.seeded', h.nodes]

theorem teams_eq (h : Alike seed s s') (entropy entropy' : Nat → Nat → Bytes) (count epoch : Nat) :
    teams scheme entropy s count epoch = teams scheme entropy' s' count epoch := by
  induction count generalizing epoch with
  | zero => rfl
  | succ count ih => simp only [teams, ih, h.team_eq entropy entropy']

/-- The longer of two rehearsals has the teams of the shorter one where that has any. -/
theorem teamAt_eq (h : Alike seed s s') (hmade : Course scheme entropy s all blocks)
    (hmade' : Course scheme entropy' s' all' blocks') (hle : s.blocks ≤ s'.blocks) {index : Nat}
    (hindex : index ≤ s.blocks.toNat) : teamAt all s index = teamAt all' s' index := by
  obtain ⟨members, hmembers⟩ := exists_teamAt hmade.count hindex
  obtain ⟨members', hmembers'⟩ :=
    exists_teamAt hmade'.count (Nat.le_trans hindex (UInt64.le_iff_toNat_le.1 hle))
  have hteam := hmade.members _ members (teamAt_eq_ok_iff.1 hmembers)
  have hteam' := hmade'.members _ members' (teamAt_eq_ok_iff.1 hmembers')
  rw [h.team_eq entropy entropy', h.rotation, hteam'] at hteam
  cases hteam
  rw [hmembers, hmembers']

theorem blockAfter_eq (h : Alike seed s s') (hmade : Course scheme entropy s all blocks)
    (hmade' : Course scheme entropy' s' all' blocks') (hle : s.blocks ≤ s'.blocks) {index : Nat}
    (hindex : index ≤ s.blocks.toNat) (previous : Block) :
    blockAfter scheme s all index previous = blockAfter scheme s' all' index previous := by
  unfold blockAfter
  rw [h.teamAt_eq hmade hmade' hle hindex,
    h.teamAt_eq hmade hmade' hle (show index - 1 ≤ s.blocks.toNat by omega)]

end Alike

namespace Course

theorem of_inMemory (h : Course scheme entropy s.inMemory all blocks) (hseeded : s.seed = some seed) :
    Course scheme entropy s all blocks where
  teams_eq := by
    rw [(alike_inMemory hseeded).teams_eq entropy entropy]
    exact h.teams_eq
  count := h.count
  members := h.members
  first := h.first
  length_eq := h.length_eq
  next := h.next

theorem isPrefix (h : Course scheme entropy s all blocks)
    (h' : Course scheme entropy' s' all' blocks') (halike : Alike seed s s')
    (hle : s.blocks ≤ s'.blocks) : blocks <+: blocks' := by
  have hlength := h.length_eq
  have hlength' := h'.length_eq
  have hle' : s.blocks.toNat ≤ s'.blocks.toNat := UInt64.le_iff_toNat_le.1 hle
  have hsame : ∀ i, i < blocks.length → blocks'[i]? = blocks[i]? := by
    intro i hi
    induction i with
    | zero =>
      obtain ⟨first, hfirst, hblock⟩ := h.first
      obtain ⟨first', hfirst', hblock'⟩ := h'.first
      rw [halike.teamAt_eq h h' hle (Nat.zero_le _), hfirst'] at hfirst
      cases hfirst
      rw [hblock, hblock']
    | succ i ih =>
      obtain ⟨a, ha⟩ : ∃ a, blocks[i]? = some a := ⟨_, List.getElem?_eq_getElem (by omega)⟩
      obtain ⟨b, hb⟩ : ∃ b, blocks[i + 1]? = some b := ⟨_, List.getElem?_eq_getElem hi⟩
      obtain ⟨b', hb'⟩ : ∃ b', blocks'[i + 1]? = some b' :=
        ⟨_, List.getElem?_eq_getElem (by omega)⟩
      have hmade := h.next i a b ha hb
      have hmade' := h'.next i a b' (by rw [ih (by omega), ha]) hb'
      rw [halike.blockAfter_eq h h' hle (by omega), hmade'] at hmade
      cases hmade
      rw [hb, hb']
  rw [List.prefix_iff_getElem?]
  intro i hi
  rw [hsame i hi, List.getElem?_eq_getElem hi]

end Course

/-! ### Going on from the file -/

/-- Up to its late node, a rehearsal with a data folder goes as one without. It ends well if this
node opens beside the others and comes to have the store of the leader. -/
theorem stages_gives (h : Playable scheme entropy seed s.inMemory) (hseeded : s.seed = some seed)
    (hcourse : course scheme s.inMemory entropy = .ok blocks) (disk : Disk) :
    ∃ head c, blocks[s.blocks.toNat]? = some head ∧ blocks.length = s.blocks.toNat + 1 ∧
      Leading blocks blocks.length disk c ∧
      (c.node 0).store.Serveable scheme.crypto s.node.maxBlockSize ∧
      ∀ held opened c', (openLagging s).Gives c c.nodes.length opened →
        (Stage.attempt RehearsalError.catchUp (·.catchUp scheme.crypto c.nodes.length ⟨"lagging"⟩
          (memberAddress 0 0) head.hash)).Gives opened (reportFrom s head held).caughtUp c' →
        (c'.node c.nodes.length).store = (c.node 0).store →
        (stages scheme entropy s).Gives (.start disk s.node.streamBuffer) (reportFrom s head held)
          c' := by
  obtain ⟨all, blocks', hcourse', hmade'⟩ := h.exists_course
  obtain rfl : blocks' = blocks := Except.ok.inj (hcourse'.symm.trans hcourse)
  have hmade := hmade'.of_inMemory hseeded
  have hauthorised := hmade'.authorised h hcourse
  obtain ⟨head, c, hhead, hleading, hends⟩ := hmade.stages_gives h.valid hauthorised
    (hmade'.storable h hcourse) h.word (h.blocksFit blocks' hcourse) h.nodes_pos disk
  exact ⟨head, c, hhead, hmade.length_eq, hleading,
    hleading.serveable (s := s.inMemory) hcourse h hauthorised, hends⟩

section File
variable {disk opened : Disk} {folder path : String} {location : Location} {store : Store}
  {c : Collective}

theorem openLagging_gives_file (hfolder : s.node.dataFolder = some folder)
    (hpath : Storage.fileIn folder = .file path) (hopen : c.disk.openFile path = (.ok location, opened))
    {opened' : Disk}
    (hstore : Ledger.openStore Storage.log (.file path, opened) = (.ok store, .file path, opened')) :
    (openLagging s).Gives c c.nodes.length
      { c with disk := opened', nodes := c.nodes ++ [⟨s.node, store, .file path⟩] } := by
  have hprepare : (Stage.attempt (.blockLog folder) (·.prepare (.fileIn folder))).Gives c ()
      { c with disk := opened } := by
    refine Stage.gives_attempt ?_
    simp only [Collective.prepare, Storage.prepare, hpath, hopen]
  have hadd : (Stage.attempt .laggingStore (·.addNode s.node (.fileIn folder))).Gives
      { c with disk := opened } c.nodes.length
      { c with disk := opened', nodes := c.nodes ++ [⟨s.node, store, .file path⟩] } := by
    refine Stage.gives_attempt ?_
    simp only [Collective.addNode, hpath, hstore]
  unfold openLagging
  rw [hfolder]
  exact hprepare.bind hadd

/-- A rehearsal whose late node finds the first blocks in its file ends well. The node passes over
these, takes the others, and leaves all of them in the file. -/
theorem run_resumes (h : Playable scheme entropy seed s.inMemory) (hseeded : s.seed = some seed)
    (hfolder : s.node.dataFolder = some folder) (hpath : Storage.fileIn folder = .file path)
    (hcourse : course scheme s.inMemory entropy = .ok blocks)
    (hfits : ∀ b ∈ blocks, Record.Fits b) (hopen : disk.openFile path = (.ok location, opened))
    (hroom : opened.HasRoom blocks) {held : List Block} (hlogs : opened.Logs path held)
    (hheld : held <+: blocks) :
    ∃ head left, blocks[s.blocks.toNat]? = some head ∧
      run scheme entropy s disk = (.ok (reportFrom s head held.length), left) ∧
      left.Logs path blocks ∧ left.limit = opened.limit := by
  obtain ⟨head, c, hhead, hlength, hleading, hserve, hends⟩ := stages_gives h hseeded hcourse disk
  obtain ⟨more, rfl⟩ := hheld
  obtain ⟨store, hstore, hblocks⟩ := hleading.reachable.exists_take held.length
  rw [hleading.all_blocks, List.take_left' rfl] at hblocks
  have hfollows : store.Follows (c.node 0).store held.length :=
    { reachable := hstore
      blocks_eq := by rw [hblocks, hleading.all_blocks, List.take_left' rfl]
      within := by
        rw [Store.size, hleading.all_blocks, List.length_append]
        exact Nat.le_add_right _ _ }
  rw [← hblocks] at hlogs
  obtain ⟨d₁, hopenStore, hlogs₁, hlimit₁⟩ := hlogs.openStore hstore fun b hb =>
    hfits b (List.mem_append_left more (hblocks ▸ hb))
  have hbetween : (c.node 0).store.between store.size (s.blocks.toNat + 1) = more := by
    rw [Store.between, hleading.all_blocks, ← hlength, List.take_length, Store.size, hblocks,
      List.drop_left' rfl]
  have hroom₁ : d₁.HasRoom (store.blocks ++ more) := by
    rw [hblocks]
    intro limit hlimit
    exact hroom limit (hlimit₁ ▸ hlimit)
  obtain ⟨d₂, happend, hlogs₂, hlimit₂⟩ :=
    hlogs₁.appendAll (fun b hb => hfits b (List.mem_append_right held hb)) hroom₁
  have hfill : (⟨store, .file path, d₁⟩ : Ledger (Storage × Disk)).fill Storage.log
      (c.node 0).store (s.blocks.toNat + 1) = (.ok (), .file path, d₂) := by
    rw [Ledger.fill, hbetween, happend]
  have hopened : c.disk.openFile path = (.ok location, opened) := by rw [hleading.disk_eq, hopen]
  obtain ⟨c', hcaught, hsame, _, hdisk⟩ :=
    hleading.resumed ⟨s.node, store, .file path⟩ d₁ hserve hfollows hhead
      hlength (by rw [Ledger.Takes, hfill]) ⟨"lagging"⟩
  have hstages := hends held.length _ c' (openLagging_gives_file hfolder hpath hopened hopenStore)
    hcaught hsame
  refine ⟨head, d₂, hhead, ?_, ?_, hlimit₂.trans hlimit₁⟩
  · unfold run
    rw [hstages]
    rw [hfill] at hdisk
    exact congrArg (Prod.mk _) hdisk
  · rwa [hblocks] at hlogs₂

end File

/-! ### One after the other -/

structure Plan where
  settings : Settings
  /-- What keys are made from without a seed. -/
  entropy : Nat → Nat → Bytes

/-- Plays rehearsals on one disk: what each reports, and the disk that it leaves to the next. -/
def playAll (scheme : Scheme Key) :
    List Plan → Disk → List (Except Failure RehearsalReport × Disk)
  | [], _ => []
  | plan :: plans, disk =>
    let played := run scheme plan.entropy plan.settings disk
    played :: playAll scheme plans played.2

/-- How many blocks the file holds before a rehearsal: those of the one before it. -/
def heldBefore (held : Nat) (plans : List Plan) : (i : Nat) → Nat
  | 0 => held
  | i + 1 => (plans[i]?.map fun plan => plan.settings.blocks.toNat + 1).getD held

/-- Rehearsals that share what decides their blocks and where these are kept. Each makes at least as
many as the one before it, and has room for them. -/
structure Series (scheme : Scheme Key) (seed : UInt64) (nodes : Nat) (rotation : UInt64)
    (folder : String) (limit : Option Nat) (plans : List Plan) : Prop where
  playable : ∀ plan ∈ plans, Playable scheme plan.entropy seed plan.settings.inMemory
  nodes : ∀ plan ∈ plans, plan.settings.nodes = nodes
  rotation : ∀ plan ∈ plans, plan.settings.rotation = rotation
  folder : ∀ plan ∈ plans, plan.settings.node.dataFolder = some folder
  growing : plans.Pairwise fun plan later => plan.settings.blocks ≤ later.settings.blocks
  recorded : ∀ plan ∈ plans, ∀ blocks,
    course scheme plan.settings.inMemory plan.entropy = .ok blocks →
    (∀ b ∈ blocks, Record.Fits b) ∧ ∀ n, limit = some n → (Record.ofBlocks blocks).length ≤ n

namespace Series
variable {nodes : Nat} {rotation : UInt64} {folder path : String} {limit : Option Nat}
  {plan later : Plan} {plans : List Plan} {disk opened : Disk} {location : Location}

theorem tail (h : Series scheme seed nodes rotation folder limit (plan :: plans)) :
    Series scheme seed nodes rotation folder limit plans where
  playable p hp := h.playable p (List.mem_cons_of_mem plan hp)
  nodes p hp := h.nodes p (List.mem_cons_of_mem plan hp)
  rotation p hp := h.rotation p (List.mem_cons_of_mem plan hp)
  folder p hp := h.folder p (List.mem_cons_of_mem plan hp)
  growing := (List.pairwise_cons.1 h.growing).2
  recorded p hp := h.recorded p (List.mem_cons_of_mem plan hp)

theorem course_isPrefix (h : Series scheme seed nodes rotation folder limit plans)
    (hplan : plan ∈ plans) (hlater : later ∈ plans)
    (hle : plan.settings.blocks ≤ later.settings.blocks)
    (hcourse : course scheme plan.settings.inMemory plan.entropy = .ok blocks)
    (hcourse' : course scheme later.settings.inMemory later.entropy = .ok blocks') :
    blocks <+: blocks' := by
  have hplayable := h.playable plan hplan
  have hplayable' := h.playable later hlater
  obtain ⟨all, made, hmade, hcourses⟩ := hplayable.exists_course
  obtain ⟨all', made', hmade', hcourses'⟩ := hplayable'.exists_course
  rw [hcourse] at hmade
  rw [hcourse'] at hmade'
  cases hmade
  cases hmade'
  have halike : Alike seed plan.settings.inMemory later.settings.inMemory :=
    ⟨hplayable.seeded, hplayable'.seeded, (h.nodes plan hplan).trans (h.nodes later hlater).symm,
      (h.rotation plan hplan).trans (h.rotation later hlater).symm⟩
  exact hcourses.isPrefix hcourses' halike hle

theorem playAll_logs (h : Series scheme seed nodes rotation folder limit plans)
    (hpath : Storage.fileIn folder = .file path) (hopen : disk.openFile path = (.ok location, opened))
    (hlimit : opened.limit = limit) {held : List Block} (hlogs : opened.Logs path held)
    (hheld : ∀ plan ∈ plans, ∀ blocks,
      course scheme plan.settings.inMemory plan.entropy = .ok blocks → held <+: blocks)
    {i : Nat} (hplan : plans[i]? = some plan) :
    ∃ blocks head left, course scheme plan.settings.inMemory plan.entropy = .ok blocks ∧
      blocks[plan.settings.blocks.toNat]? = some head ∧
      (playAll scheme plans disk)[i]? =
        some (.ok (reportFrom plan.settings head (heldBefore held.length plans i)), left) ∧
      left.Logs path blocks := by
  -- The induction is on the rehearsals; what each leaves in the file is where the next goes on.
  induction plans generalizing disk opened location held i with
  | nil => cases hplan
  | cons first plans ih =>
    have hplayable := h.playable first List.mem_cons_self
    obtain ⟨all, blocks, hcourse, hmade⟩ := hplayable.exists_course
    obtain ⟨hfits, hroom⟩ := h.recorded first List.mem_cons_self blocks hcourse
    rw [← hlimit] at hroom
    obtain ⟨head, left, hhead, hrun, hleft, hlimit'⟩ := run_resumes hplayable hplayable.seeded
      (h.folder first List.mem_cons_self) hpath hcourse hfits hopen hroom hlogs
      (hheld first List.mem_cons_self blocks hcourse)
    cases i with
    | zero =>
      cases hplan
      exact ⟨blocks, head, left, hcourse, hhead, congrArg some hrun, hleft⟩
    | succ i =>
      have hlength : blocks.length = first.settings.blocks.toNat + 1 := hmade.length_eq
      have hbefore : heldBefore held.length (first :: plans) (i + 1) =
          heldBefore blocks.length plans i := by
        cases i with
        | zero => exact hlength.symm
        | succ i =>
          obtain ⟨before, hsome⟩ : ∃ before, plans[i]? = some before := by
            have hlt := (List.getElem?_eq_some_iff.1 hplan).1
            rw [List.length_cons] at hlt
            exact ⟨_, List.getElem?_eq_getElem (by omega)⟩
          simp only [heldBefore, List.getElem?_cons_succ, hsome, Option.map_some, Option.getD_some]
      obtain ⟨location', hopen'⟩ := hleft.openFile
      have hnext := ih h.tail hopen' (hlimit'.trans hlimit) hleft
        (fun later hlater blocks' hcourse' => h.course_isPrefix List.mem_cons_self
          (List.mem_cons_of_mem first hlater)
          ((List.pairwise_cons.1 h.growing).1 later hlater) hcourse hcourse') hplan
      rw [hbefore, playAll, hrun]
      exact hnext

theorem openStore_eq (h : Series scheme seed nodes rotation folder limit plans) (hplan : plan ∈ plans)
    (hcourse : course scheme plan.settings.inMemory plan.entropy = .ok blocks) {left : Disk}
    (hleft : left.Logs path blocks) :
    ∃ store medium, Ledger.openStore Storage.log (.file path, left) = (.ok store, medium) ∧
      store.blocks = blocks := by
  have hplayable := h.playable plan hplan
  obtain ⟨head, c, _, _, hleading, _⟩ := stages_gives hplayable hplayable.seeded hcourse .empty
  have hblocks := hleading.all_blocks
  rw [← hblocks] at hleft
  obtain ⟨left', hopen, _⟩ := hleft.openStore hleading.reachable fun b hb =>
    (h.recorded plan hplan blocks hcourse).1 b (hblocks ▸ hb)
  exact ⟨_, _, hopen, hblocks⟩

theorem blocks_le (h : Series scheme seed nodes rotation folder limit plans) {i j : Nat}
    (hij : j ≤ i) (hplan : plans[j]? = some plan) (hlater : plans[i]? = some later) :
    plan.settings.blocks ≤ later.settings.blocks := by
  rcases Nat.lt_or_eq_of_le hij with hlt | rfl
  · obtain ⟨hj, rfl⟩ := List.getElem?_eq_some_iff.1 hplan
    obtain ⟨hi, rfl⟩ := List.getElem?_eq_some_iff.1 hlater
    exact List.pairwise_iff_getElem.1 h.growing j i hj hi hlt
  · rw [hplan] at hlater
    cases hlater
    exact UInt64.le_refl _

/-- **With a seed and a data folder, rehearsals go on where the ones before them have stopped.** They
are played on a disk where the file of the folder can be made ready and is empty then. Each ends
well: its late node passes over the blocks that the rehearsal before it made and takes the others,
its file is read back as all its blocks, and whatever an earlier rehearsal has left in the file is
in the same place. -/
theorem playAll_resumes (h : Series scheme seed nodes rotation folder opened.limit plans)
    (hpath : Storage.fileIn folder = .file path) (hopen : disk.openFile path = (.ok location, opened))
    (hempty : opened.contents path = []) {i : Nat} (hplan : plans[i]? = some plan) :
    ∃ (blocks : List Block) (head : Block) (left : Disk) (store : Store) (medium : Storage × Disk),
      course scheme plan.settings.inMemory plan.entropy = .ok blocks ∧
      blocks[plan.settings.blocks.toNat]? = some head ∧
      (playAll scheme plans disk)[i]? =
        some (.ok (reportFrom plan.settings head (heldBefore 0 plans i)), left) ∧
      Ledger.openStore Storage.log (.file path, left) = (.ok store, medium) ∧
      store.blocks = blocks ∧
      ∀ (j : Nat) (result : Except Failure RehearsalReport) (earlier : Disk) (store' : Store)
          (medium' : Storage × Disk), j ≤ i →
        (playAll scheme plans disk)[j]? = some (result, earlier) →
        Ledger.openStore Storage.log (.file path, earlier) = (.ok store', medium') →
        ∀ (height : Nat) (b : Block), store'.blocks[height]? = some b →
          store.blocks[height]? = some b := by
  have hlogs : opened.Logs path [] := by
    have hkeeps := Disk.keeps_of_openFile hopen
    rw [hempty] at hkeeps
    exact ⟨location, hkeeps⟩
  have hplayed : ∀ {j : Nat} {plan : Plan}, plans[j]? = some plan → _ := fun hplan =>
    h.playAll_logs hpath hopen rfl hlogs (fun _ _ _ _ => List.nil_prefix) hplan
  obtain ⟨blocks, head, left, hcourse, hhead, hrun, hleft⟩ := hplayed hplan
  have hmem := List.mem_of_getElem? hplan
  obtain ⟨store, medium, hstore, hblocks⟩ := h.openStore_eq hmem hcourse hleft
  refine ⟨blocks, head, left, store, medium, hcourse, hhead, hrun, hstore, hblocks, ?_⟩
  intro j result earlier store' medium' hij hrun' hstore' height b hb
  obtain ⟨plan', hplan'⟩ : ∃ plan', plans[j]? = some plan' := by
    have hlt := (List.getElem?_eq_some_iff.1 hplan).1
    exact ⟨_, List.getElem?_eq_getElem (by omega)⟩
  have hmem' := List.mem_of_getElem? hplan'
  obtain ⟨blocks', _, left', hcourse', _, hrun'', hleft'⟩ := hplayed hplan'
  rw [hrun''] at hrun'
  cases hrun'
  obtain ⟨_, _, hstore'', hblocks'⟩ := h.openStore_eq hmem' hcourse' hleft'
  rw [hstore''] at hstore'
  cases hstore'
  obtain ⟨more, rfl⟩ := h.course_isPrefix hmem' hmem (h.blocks_le hij hplan' hplan) hcourse' hcourse
  rw [hblocks'] at hb
  rw [hblocks, List.getElem?_append_left (List.getElem?_eq_some_iff.1 hb).1, hb]

def toDisk (blocks : UInt64) : Plan :=
  ⟨⟨2, blocks, 2, some 7, "info", ⟨1, 1000, some "data"⟩⟩, fun _ _ => []⟩

theorem series_toDisk : Series Transparent.scheme 7 2 2 "data" none [toDisk 1, toDisk 3] := by
  have hplayable : ∀ plan ∈ [toDisk 1, toDisk 3],
      Playable Transparent.scheme plan.entropy 7 plan.settings.inMemory := by
    intro plan hplan
    rcases List.mem_cons.1 hplan with rfl | hplan
    · exact playable_of_course rfl rfl rfl (by decide) (by decide) (by decide +kernel)
    · obtain rfl := List.mem_singleton.1 hplan
      exact short_playable
  have hshared : ∀ plan ∈ [toDisk 1, toDisk 3], plan.settings.nodes = 2 ∧
      plan.settings.rotation = 2 ∧ plan.settings.node = ⟨1, 1000, some "data"⟩ := by
    intro plan hplan
    rcases List.mem_cons.1 hplan with rfl | hplan
    · exact ⟨rfl, rfl, rfl⟩
    · obtain rfl := List.mem_singleton.1 hplan
      exact ⟨rfl, rfl, rfl⟩
  exact
    { playable := hplayable
      nodes := fun plan hplan => (hshared plan hplan).1
      rotation := fun plan hplan => (hshared plan hplan).2.1
      folder := fun plan hplan => congrArg (·.dataFolder) (hshared plan hplan).2.2
      growing := by simp [toDisk]
      recorded := by
        intro plan hplan blocks hcourse
        refine ⟨fun b hb => ?_, nofun⟩
        have hfits := (hplayable plan hplan).blocksFit blocks hcourse b hb
        have hlimit : plan.settings.inMemory.node.maxBlockSize = 1000 :=
          congrArg (·.maxBlockSize) (hshared plan hplan).2.2
        rw [hlimit] at hfits
        exact Nat.lt_of_le_of_lt hfits (by decide) }

/-- One block after the first, and then two more: the second rehearsal passes over two blocks. -/
theorem playAll_resumes_toDisk :
    let plans := [toDisk 1, toDisk 3]
    Series Transparent.scheme 7 2 2 "data" none plans ∧
    ∃ (blocks : List Block) (head : Block) (left : Disk) (store : Store) (medium : Storage × Disk),
      blocks[3]? = some head ∧
      (playAll Transparent.scheme plans .empty)[1]? =
        some (.ok ⟨head.hash, 3, 2, 1, 2, ⟨head.hash, 4, 2, 2⟩⟩, left) ∧
      Ledger.openStore Storage.log (.file "data/blocks.log", left) = (.ok store, medium) ∧
      store.blocks = blocks := by
  intro plans
  have hopen : Disk.empty.openFile "data/blocks.log" = (.ok ["data", "blocks.log"],
      ⟨[(["data"], .folder), (["data", "blocks.log"], .file [])], none⟩) := by decide +kernel
  have hpath : Storage.fileIn "data" = .file "data/blocks.log" := rfl
  have hempty : (⟨[(["data"], .folder), (["data", "blocks.log"], .file [])], none⟩ : Disk).contents
      "data/blocks.log" = [] := by decide +kernel
  have hlast : plans[1]? = some (toDisk 3) := rfl
  have hreport : ∀ head, reportFrom (toDisk 3).settings head (heldBefore 0 plans 1) =
      ⟨head.hash, 3, 2, 1, 2, ⟨head.hash, 4, 2, 2⟩⟩ := fun _ => rfl
  obtain ⟨blocks, head, left, store, medium, _, hhead, hrun, hstore, hblocks, _⟩ :=
    playAll_resumes series_toDisk hpath hopen hempty hlast
  rw [hreport] at hrun
  exact ⟨series_toDisk, blocks, head, left, store, medium, hhead, hrun, hstore, hblocks⟩

end Series

end Rehearsal

end CosignedLedger
