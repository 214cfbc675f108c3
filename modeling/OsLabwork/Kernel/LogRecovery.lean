import OsLabwork.Kernel.LogAdmission

/-!
# Crash safety of the log

At every moment the disk can be recovered to what has been committed: the header names
blocks whose committed contents are in the log, and all other blocks are at home. Before the
header is written this holds because it names none, and after that because the log is
complete; copying blocks home, as `commit` and recovery do, keeps it.

All this needs the log area to hold what is logged. `log_write` alone does not see to that,
since it checks before it takes the lock; `begin_op` does, if operations keep to a quota and the
log area has room for two of them and for ten blocks more.
-/

namespace OsLabwork.Kernel.Logging

open Histories Schedules Transactions

variable {ι : Type} [DecidableEq ι] [Fintype ι]

/-! ## What can be recovered -/

/-- The header block is in the log area. -/
theorem start_not_home (layout : Layout) : layout.home layout.start = false := by
  have := layout.nonempty
  simp [Layout.home]
  omega

/-- The copies are in the log area, as long as they fit. -/
theorem copy_not_home (layout : Layout) {k : Nat} (inside : k + 1 < layout.size) :
    layout.home (layout.start + k + 1) = false := by
  simp [Layout.home]
  omega

/-- Blocks of the log area are not blocks outside of it. -/
theorem ne_of_home {layout : Layout} {address other : Nat} (home : layout.home address = true)
    (notHome : layout.home other = false) : address ≠ other := by
  rintro rfl
  exact Bool.false_ne_true (notHome.symm.trans home)

/-- The header names blocks whose durable contents are in the log, and the other blocks are
at home. -/
structure Recoverable (layout : Layout) (disk durable : Nat → Block) : Prop where
  few : (readHead (disk layout.start)).length ≤ logsize
  fits : (readHead (disk layout.start)).length < layout.size
  homes : ∀ blockno ∈ readHead (disk layout.start), layout.home blockno.toNat = true
  copies : ∀ k blockno, (readHead (disk layout.start))[k]? = some blockno →
    disk (layout.start + k + 1) = durable blockno.toNat
  others : ∀ address, layout.home address = true →
    (∀ blockno ∈ readHead (disk layout.start), blockno.toNat ≠ address) →
    disk address = durable address

section Recoverable

variable {layout : Layout} {disk durable : Nat → Block}

/-- Entries come before the end of the header. -/
theorem lt_of_entry {lh : List (BitVec 32)} {k : Nat} {blockno : BitVec 32}
    (entry : lh[k]? = some blockno) : k < lh.length :=
  (List.getElem?_eq_some_iff.mp entry).1

/-- With a header that names nothing, every block is at home. -/
theorem Recoverable.at_home (recoverable : Recoverable layout disk durable)
    (clean : readHead (disk layout.start) = []) {address : Nat}
    (home : layout.home address = true) : disk address = durable address :=
  recoverable.others address home (by rw [clean]; exact fun _ inNil => absurd inNil List.not_mem_nil)

/-- With a header that names nothing, nothing else is needed. -/
theorem recoverable_clean (clean : readHead (disk layout.start) = [])
    (atHome : ∀ address, layout.home address = true → disk address = durable address) :
    Recoverable layout disk durable where
  few := by rw [clean]; exact Nat.zero_le _
  fits := by rw [clean]; exact layout.nonempty
  homes := by rw [clean]; exact fun _ inNil => absurd inNil List.not_mem_nil
  copies := by rw [clean]; exact fun _ _ entry => absurd entry.symm (Option.some_ne_none _)
  others address home _ := atHome address home

/-- Writing into the log is safe while the header names nothing. -/
theorem Recoverable.write_copy (recoverable : Recoverable layout disk durable)
    (clean : readHead (disk layout.start) = []) {k : Nat} (inside : k + 1 < layout.size)
    (block : Block) :
    Recoverable layout (Function.update disk (layout.start + k + 1) block) durable := by
  have header : Function.update disk (layout.start + k + 1) block layout.start =
      disk layout.start := Function.update_of_ne (by omega) ..
  refine recoverable_clean (by rw [header, clean]) (fun address home => ?_)
  rw [Function.update_of_ne (ne_of_home home (copy_not_home layout inside))]
  exact recoverable.at_home clean home

/-- Bringing a durable block home is safe at any time. -/
theorem Recoverable.write_home (recoverable : Recoverable layout disk durable) {address : Nat}
    (home : layout.home address = true) :
    Recoverable layout (Function.update disk address (durable address)) durable := by
  have header : Function.update disk address (durable address) layout.start =
      disk layout.start := Function.update_of_ne (ne_of_home home (start_not_home layout)).symm ..
  refine ⟨by rw [header]; exact recoverable.few, by rw [header]; exact recoverable.fits,
    by rw [header]; exact recoverable.homes, fun k blockno entry => ?_, fun other isHome absent => ?_⟩
  · rw [header] at entry
    have inside : k + 1 < layout.size := by
      have := lt_of_entry entry
      have := recoverable.fits
      omega
    rw [Function.update_of_ne (ne_of_home home (copy_not_home layout inside)).symm]
    exact recoverable.copies k blockno entry
  · by_cases same : other = address
    · rw [same, Function.update_self]
    · rw [header] at absent
      rw [Function.update_of_ne same]
      exact recoverable.others other isHome absent

/-- Writing the header makes durable what is in the log and at home. -/
theorem Recoverable.commit (recoverable : Recoverable layout disk durable)
    (clean : readHead (disk layout.start) = []) {lh : List (BitVec 32)} (few : lh.length ≤ logsize)
    (fits : lh.length < layout.size)
    (homes : ∀ blockno ∈ lh, layout.home blockno.toNat = true) {current : Nat → Block}
    (copies : ∀ k blockno, lh[k]? = some blockno →
      disk (layout.start + k + 1) = current blockno.toNat)
    (logged : Logged ⟨durable, current⟩ lh) (header : Block) :
    Recoverable layout (Function.update disk layout.start (headerBlock header lh)) current := by
  have names : readHead (Function.update disk layout.start (headerBlock header lh) layout.start) =
      lh := by
    rw [Function.update_self, readHead_headerBlock]
    simp only [logsize, maxopblocks] at few
    omega
  refine ⟨by rw [names]; exact few, by rw [names]; exact fits, by rw [names]; exact homes,
    fun k blockno entry => ?_, fun address home absent => ?_⟩
  · rw [names] at entry
    rw [Function.update_of_ne (by omega)]
    exact copies k blockno entry
  · rw [names] at absent
    have same : current address = durable address := logged address absent
    rw [Function.update_of_ne (ne_of_home home (start_not_home layout)), same]
    exact recoverable.at_home clean home

/-- A header without numbers names nothing. -/
theorem readHead_cleared (disk : Nat → Block) (header : Block) :
    readHead (Function.update disk layout.start (headerBlock header []) layout.start) = [] := by
  rw [Function.update_self, readHead_headerBlock header (by decide)]

/-- Clearing the header is safe once every block is at home. -/
theorem recoverable_cleared
    (atHome : ∀ address, layout.home address = true → disk address = durable address)
    (header : Block) :
    Recoverable layout (Function.update disk layout.start (headerBlock header [])) durable := by
  refine recoverable_clean (readHead_cleared disk header) (fun address home => ?_)
  rw [Function.update_of_ne (ne_of_home home (start_not_home layout))]
  exact atHome address home

end Recoverable

/-! ## The stages of a commit and of recovery -/

section Stages

variable (layout : Layout) (store : Store Nat Block) (disk : Nat → Block)
  (lh : List (BitVec 32))

/-- The first blocks that have been logged are in the log. -/
def Copied (tail : Nat) : Prop :=
  ∀ k blockno, k < tail → lh[k]? = some blockno →
    disk (layout.start + k + 1) = store.current blockno.toNat

/-- The first blocks that have been logged are at home. -/
def Installed (tail : Nat) : Prop :=
  ∀ k blockno, k < tail → lh[k]? = some blockno →
    disk blockno.toNat = store.durable blockno.toNat

/-- All blocks are at home. -/
def AtHome : Prop :=
  ∀ address, layout.home address = true → disk address = store.durable address

/-- What is on the disk while a process is at some place. -/
def Stage : Place → Prop
  | .commit | .endCommit => readHead (disk layout.start) = []
  | .writeLog tail => readHead (disk layout.start) = [] ∧ Copied layout store disk lh tail
  | .writeHead => readHead (disk layout.start) = [] ∧ Copied layout store disk lh lh.length
  | .installTrans tail => readHead (disk layout.start) = lh ∧ Installed store disk lh tail
  | .clearHead => AtHome layout store disk
  | .idle | .beginOp | .asleep | .active _ | .logWrite _ _ _ => True

/-- What is on the disk while recovery is at some place. -/
def BootStage : Boot → Prop
  | .readHead => True
  | .installTrans tail => readHead (disk layout.start) = lh ∧ Installed store disk lh tail
  | .clearHead => AtHome layout store disk

/-- What has passed the checks of `log_write` is outside the log area. -/
def Place.Outside : Place → Prop
  | .logWrite _ blockno _ => layout.home blockno.toNat = true
  | _ => True

variable {layout store disk lh}

/-- Processes that do not commit say nothing about the disk. -/
theorem stage_of_not_commits (place : Place) (notCommits : place.commits = false) :
    Stage layout store disk lh place := by
  cases place <;> trivial

/-- A process that is woken had nothing to do with a commit. -/
theorem Stage.wakeup {place : Place} (stage : Stage layout store disk lh place) :
    Stage layout store disk lh place.wakeup := by
  revert stage
  cases place <;> exact id

/-- Processes that are woken are not in `log_write`. -/
theorem Place.Outside.wakeup {place : Place} (outside : place.Outside layout) :
    place.wakeup.Outside layout := by
  revert outside
  cases place <;> exact id

/-- Once all blocks are copied home, all blocks are at home. -/
theorem Installed.atHome (recoverable : Recoverable layout disk store.durable)
    (named : readHead (disk layout.start) = lh) {tail : Nat}
    (installed : Installed store disk lh tail)
    (last : lh[tail]? = none) : AtHome layout store disk := by
  intro address home
  by_cases logged : ∃ blockno ∈ lh, blockno.toNat = address
  · obtain ⟨blockno, inLog, rfl⟩ := logged
    obtain ⟨k, inside, rfl⟩ := List.mem_iff_getElem.mp inLog
    have before : k < tail := by
      rw [List.getElem?_eq_none_iff] at last
      omega
    exact installed k _ before (List.getElem?_eq_getElem inside)
  · refine recoverable.others address home (fun blockno inLog isAddress => logged ⟨blockno, ?_⟩)
    exact ⟨named ▸ inLog, isAddress⟩

/-- One more block comes home. -/
theorem Installed.install {tail : Nat} (installed : Installed store disk lh tail)
    {blockno : BitVec 32} (entry : lh[tail]? = some blockno) :
    Installed store (Function.update disk blockno.toNat (store.durable blockno.toNat)) lh
      (tail + 1) := by
  intro k other before isEntry
  by_cases same : other.toNat = blockno.toNat
  · rw [same, Function.update_self]
  · rw [Function.update_of_ne same]
    refine installed k other ?_ isEntry
    have different : k ≠ tail := by
      rintro rfl
      rw [entry, Option.some.injEq] at isEntry
      exact same (congrArg BitVec.toNat isEntry.symm)
    omega

end Stages

/-- What holds of the machine, given what is durable and what is current. -/
structure Sound (layout : Layout) (store : Store Nat Block) (system : System ι) : Prop where
  coherent : system.device.Coherent
  dirtyHome : ∀ address, system.device.dirty address = true → layout.home address = true
  recoverable : Recoverable layout system.device.disk store.durable
  few : system.lh.length ≤ logsize
  fits : system.lh.length < layout.size
  homes : ∀ blockno ∈ system.lh, layout.home blockno.toNat = true
  outside : ∀ process, (system.places process).Outside layout
  reads : system.boot = none → ∀ address, layout.home address = true →
    system.device.bread address = store.current address
  clean : system.boot = none → system.committing = false →
    readHead (system.device.disk layout.start) = []
  stage : system.boot = none → ∀ process,
    Stage layout store system.device.disk system.lh (system.places process)
  booting : ∀ boot, system.boot = some boot →
    (∀ address, system.device.dirty address = false) ∧
    BootStage layout store system.device.disk system.lh boot

section Sound

variable {layout : Layout} {store : Store Nat Block} {system after : System ι}

omit [DecidableEq ι] [Fintype ι]

/-- Blocks of the log area are read as they are on the disk. -/
theorem Sound.bread_log (sound : Sound layout store system) {address : Nat}
    (inLog : layout.home address = false) :
    system.device.bread address = system.device.disk address := by
  refine sound.coherent.bread_eq ?_
  cases dirty : system.device.dirty address with
  | false => rfl
  | true => exact absurd (inLog.symm.trans (sound.dirtyHome address dirty)) Bool.false_ne_true

/-- Steps of running processes that leave the blocks alone. -/
theorem Sound.of_same (sound : Sound layout store system) (running : system.boot = none)
    (device : after.device = system.device) (lh : after.lh = system.lh)
    (boot : after.boot = system.boot)
    (outside : ∀ process, (after.places process).Outside layout)
    (clean : after.committing = false → readHead (system.device.disk layout.start) = [])
    (stage : ∀ process, Stage layout store system.device.disk system.lh (after.places process)) :
    Sound layout store after where
  coherent := by rw [device]; exact sound.coherent
  dirtyHome := by rw [device]; exact sound.dirtyHome
  recoverable := by rw [device]; exact sound.recoverable
  few := by rw [lh]; exact sound.few
  fits := by rw [lh]; exact sound.fits
  homes := by rw [lh]; exact sound.homes
  outside := outside
  reads := by rw [device, boot]; exact sound.reads
  clean _ := by rw [device]; exact clean
  stage _ := by rw [device, lh]; exact stage
  booting phase isBooting := by
    rw [boot, running] at isBooting
    exact absurd isBooting.symm (Option.some_ne_none phase)

/-- Reading blocks and recycling buffers. -/
theorem Sound.cache (sound : Sound layout store system) {device : Device}
    (disk : device.disk = system.device.disk) (dirty : device.dirty = system.device.dirty)
    (bread : ∀ address, device.bread address = system.device.bread address)
    (coherent : device.Coherent) : Sound layout store { system with device := device } where
  coherent := coherent
  dirtyHome := by rw [dirty]; exact sound.dirtyHome
  recoverable := by rw [disk]; exact sound.recoverable
  few := sound.few
  fits := sound.fits
  homes := sound.homes
  outside := sound.outside
  reads running address home := by rw [bread]; exact sound.reads running address home
  clean := by rw [disk]; exact sound.clean
  stage := by rw [disk]; exact sound.stage
  booting := by rw [disk, dirty]; exact sound.booting

/-- The machine is switched on with a disk that can be recovered. -/
theorem switchOn_sound {disk durable : Nat → Block} (recoverable : Recoverable layout disk durable)
    (history : List (Event ι Nat Block)) :
    Sound layout ⟨durable, durable⟩ (System.switchOn disk history) where
  coherent := coherent_off _
  dirtyHome _ dirty := Bool.noConfusion dirty
  recoverable := recoverable
  few := Nat.zero_le _
  fits := layout.nonempty
  homes _ inNil := absurd inNil List.not_mem_nil
  outside _ := trivial
  reads running := absurd running (Option.some_ne_none _)
  clean running := absurd running (Option.some_ne_none _)
  stage running := absurd running (Option.some_ne_none _)
  booting boot isBooting := by
    obtain rfl := Option.some.inj isBooting
    exact ⟨fun _ => rfl, trivial⟩

end Sound

section Steps

variable {layout : Layout} {store : Store Nat Block} {system after : System ι}

omit [Fintype ι] in
/-- A process goes to a place at which it does not commit. -/
theorem Sound.moveTo (sound : Sound layout store system) (running : system.boot = none)
    (process : ι) {place : Place} (notCommits : place.commits = false)
    (outside : place.Outside layout) : Sound layout store (system.moveTo process place) :=
  sound.of_same running rfl rfl rfl (all_moveTo _ outside sound.outside) (sound.clean running)
    (all_moveTo _ (stage_of_not_commits place notCommits) (sound.stage running))

omit [Fintype ι] in
/-- A process looks at the log in `begin_op`. -/
theorem Sound.beginOp (sound : Sound layout store system) (running : system.boot = none)
    (process : ι) : Sound layout store (system.beginOp process) := by
  unfold System.beginOp
  split
  · exact sound.moveTo running process rfl trivial
  · split
    · exact sound.moveTo running process rfl trivial
    · have moved : Sound layout store (system.moveTo process (.active [])) :=
        sound.moveTo running process rfl trivial
      exact moved.of_same running rfl rfl rfl moved.outside (moved.clean running)
        (moved.stage running)

/-- A block is logged that fits into the log. -/
theorem Sound.append (sound : Sound layout store system) (protocol : Protocol system)
    (running : system.boot = none) {process : ι} {written : List (BitVec 32)}
    {blockno : BitVec 32} {block : Block}
    (place : system.places process = .logWrite written blockno block)
    (few : (absorb system.lh blockno).length ≤ logsize)
    (fits : (absorb system.lh blockno).length < layout.size) :
    Sound layout { store with current := Function.update store.current blockno.toNat block }
      (system.append process written blockno block) := by
  have isOpen := protocol.open_of_operation place rfl
  have home := sound.outside process
  rw [place] at home
  refine ⟨sound.coherent.change _ _, fun address dirty => ?_, sound.recoverable, few, fits,
    fun other isLogged => ?_, all_moveTo _ trivial sound.outside, fun _ address isHome => ?_,
    fun _ _ => sound.clean running isOpen,
    fun _ => (protocol.append place).all_open stage_of_not_commits isOpen,
    fun boot isBooting => ?_⟩
  · by_cases same : address = blockno.toNat
    · rw [same]
      exact home
    · simp only [System.append, change_dirty, Function.update_of_ne same] at dirty
      exact sound.dirtyHome address dirty
  · obtain inLog | rfl := (mem_absorb ..).mp isLogged
    · exact sound.homes other inLog
    · exact home
  · simp only [System.append, change_bread]
    by_cases same : address = blockno.toNat
    · simp only [same, ↓reduceIte, Function.update_self]
    · simp only [if_neg same, Function.update_of_ne same]
      exact sound.reads running address isHome
  · exact absurd (running.symm.trans isBooting) (Option.some_ne_none boot).symm

/-- A step of the process that commits. -/
theorem Protocol.sound_commit (protocol : Protocol system) (running : system.boot = none)
    {process : ι} {before : Place} (atPlace : system.places process = before)
    (commits : before.commits = true) {place : Place} (boot : after.boot = system.boot)
    (committing : after.committing = system.committing)
    (places : after.places = Function.update system.places process place)
    (coherent : after.device.Coherent)
    (dirtyHome : ∀ address, after.device.dirty address = true → layout.home address = true)
    (recoverable : Recoverable layout after.device.disk store.durable)
    (few : after.lh.length ≤ logsize) (fits : after.lh.length < layout.size)
    (homes : ∀ blockno ∈ after.lh, layout.home blockno.toNat = true)
    (reads : ∀ address, layout.home address = true →
      after.device.bread address = store.current address)
    (outside : ∀ other, (after.places other).Outside layout)
    (stage : Stage layout store after.device.disk after.lh place) : Sound layout store after where
  coherent := coherent
  dirtyHome := dirtyHome
  recoverable := recoverable
  few := few
  fits := fits
  homes := homes
  outside := outside
  reads _ := reads
  clean _ isOpen := by
    rw [committing, protocol.committing_of_commits atPlace commits] at isOpen
    exact Bool.noConfusion isOpen
  stage _ := by
    rw [places]
    exact protocol.all_update stage_of_not_commits atPlace commits stage
  booting phase isBooting := by
    rw [boot, running] at isBooting
    exact absurd isBooting.symm (Option.some_ne_none phase)

/-- Writing a block does not make it dirty. -/
theorem dirtyHome_update {dirty : Nat → Bool}
    (dirtyHome : ∀ address, dirty address = true → layout.home address = true) (written : Nat)
    (address : Nat) (isDirty : Function.update dirty written false address = true) :
    layout.home address = true := by
  by_cases same : address = written
  · rw [same, Function.update_self] at isDirty
    exact Bool.noConfusion isDirty
  · rw [Function.update_of_ne same] at isDirty
    exact dirtyHome address isDirty

/-- A process goes on in `commit` without touching a block. -/
theorem Sound.goesOn (sound : Sound layout store system) (protocol : Protocol system)
    (running : system.boot = none) {process : ι} {before : Place}
    (atPlace : system.places process = before) (commits : before.commits = true) {place : Place}
    (outside : ∀ other, ((system.moveTo process place).places other).Outside layout)
    (stage : Stage layout store system.device.disk system.lh place) :
    Sound layout store (system.moveTo process place) :=
  protocol.sound_commit running atPlace commits rfl rfl rfl sound.coherent sound.dirtyHome
    sound.recoverable sound.few sound.fits sound.homes (sound.reads running) outside stage

/-- A process copies one more block into the log. -/
theorem Sound.copies (sound : Sound layout store system) (protocol : Protocol system)
    (running : system.boot = none) {process : ι} {tail : Nat} {blockno : BitVec 32}
    (place : system.places process = .writeLog tail) (entry : system.lh[tail]? = some blockno) :
    Sound layout store { system.moveTo process (.writeLog (tail + 1)) with
      device := system.device.copy blockno.toNat (layout.start + tail + 1) } := by
  have stage := sound.stage running process
  rw [place] at stage
  obtain ⟨clean, copied⟩ := stage
  have inside : tail + 1 < layout.size := by
    have := lt_of_entry entry
    have := sound.fits
    omega
  have home := sound.homes blockno (List.mem_of_getElem? entry)
  refine protocol.sound_commit running place rfl rfl rfl rfl (sound.coherent.copy _ _)
    (dirtyHome_update sound.dirtyHome _) (sound.recoverable.write_copy clean inside _)
    sound.few sound.fits sound.homes (fun address isHome => ?_)
    (all_moveTo _ trivial sound.outside) ⟨?_, fun k other before isEntry => ?_⟩
  · rw [copy_bread, if_neg (ne_of_home isHome (copy_not_home layout inside))]
    exact sound.reads running address isHome
  · rw [copy_disk, Function.update_of_ne (by omega)]
    exact clean
  · by_cases same : k = tail
    · subst same
      obtain rfl : blockno = other := Option.some.inj (entry.symm.trans isEntry)
      rw [copy_disk, Function.update_self]
      exact sound.reads running _ home
    · rw [copy_disk, Function.update_of_ne (by omega)]
      exact copied k other (by omega) isEntry

/-- The header is written: what is current becomes durable. -/
theorem Sound.commits (sound : Sound layout store system) (protocol : Protocol system)
    (ledger : Ledger store system) (running : system.boot = none) {process : ι}
    (place : system.places process = .writeHead) :
    Sound layout { store with durable := store.current }
      { (system.moveTo process (.installTrans 0)).note .committed with
        device := system.device.writeHead layout system.lh } := by
  have stage := sound.stage running process
  rw [place] at stage
  obtain ⟨clean, copied⟩ := stage
  have logged := ledger.entered running process
  rw [place] at logged
  have few : system.lh.length < 2 ^ 31 := by
    have := sound.few
    simp only [logsize, maxopblocks] at this
    omega
  have recoverable := sound.recoverable.commit clean sound.few sound.fits sound.homes
    (fun k blockno entry => copied k blockno (lt_of_entry entry) entry) logged
    (system.device.bread layout.start)
  refine protocol.sound_commit running place rfl rfl rfl rfl
    (sound.coherent.writeHead _ _) (dirtyHome_update sound.dirtyHome _) recoverable sound.few
    sound.fits sound.homes (fun address isHome => ?_) (all_moveTo _ trivial sound.outside)
    ⟨?_, fun k _ before => absurd before (Nat.not_lt_zero k)⟩
  · rw [writeHead_bread _ _ (ne_of_home isHome (start_not_home layout))]
    exact sound.reads running address isHome
  · rw [writeHead_disk, Function.update_self, readHead_headerBlock _ few]
    rfl

omit [DecidableEq ι] [Fintype ι] in
/-- The copy in the log of a block that the header names. -/
theorem Sound.bread_copy (sound : Sound layout store system)
    (named : readHead (system.device.disk layout.start) = system.lh) {tail : Nat}
    {blockno : BitVec 32} (entry : system.lh[tail]? = some blockno) :
    system.device.bread (layout.start + tail + 1) = store.durable blockno.toNat := by
  have inside : tail + 1 < layout.size := by
    have := lt_of_entry entry
    have := sound.fits
    omega
  rw [sound.bread_log (copy_not_home layout inside)]
  exact sound.recoverable.copies tail blockno (named.symm ▸ entry)

/-- A process copies one more block home. -/
theorem Sound.installs (sound : Sound layout store system) (protocol : Protocol system)
    (ledger : Ledger store system) (running : system.boot = none) {process : ι} {tail : Nat}
    {blockno : BitVec 32} (place : system.places process = .installTrans tail)
    (entry : system.lh[tail]? = some blockno) :
    Sound layout store { system.moveTo process (.installTrans (tail + 1)) with
      device := system.device.copy (layout.start + tail + 1) blockno.toNat } := by
  have stage := sound.stage running process
  rw [place] at stage
  obtain ⟨named, installed⟩ := stage
  have same : store.durable = store.current := by
    have entered := ledger.entered running process
    rw [place] at entered
    exact entered
  have copy := sound.bread_copy named entry
  have home := sound.homes blockno (List.mem_of_getElem? entry)
  refine protocol.sound_commit running place rfl rfl rfl rfl (sound.coherent.copy _ _)
    (dirtyHome_update sound.dirtyHome _) ?_ sound.few sound.fits sound.homes
    (fun address isHome => ?_) (all_moveTo _ trivial sound.outside) ⟨?_, ?_⟩
  · rw [copy_disk, copy]
    exact sound.recoverable.write_home home
  · rw [copy_bread, copy]
    by_cases isBlock : address = blockno.toNat
    · rw [if_pos isBlock, isBlock, same]
    · rw [if_neg isBlock]
      exact sound.reads running address isHome
  · rw [copy_disk, Function.update_of_ne (ne_of_home home (start_not_home layout)).symm]
    exact named
  · rw [copy_disk, copy]
    exact installed.install entry

/-- All blocks are at home, and the header in memory is empty. -/
theorem Sound.installed (sound : Sound layout store system) (protocol : Protocol system)
    (running : system.boot = none) {process : ι} {tail : Nat}
    (place : system.places process = .installTrans tail) (last : system.lh[tail]? = none) :
    Sound layout store { system.moveTo process .clearHead with lh := [] } := by
  have stage := sound.stage running process
  rw [place] at stage
  obtain ⟨named, installed⟩ := stage
  exact protocol.sound_commit running place rfl rfl rfl rfl sound.coherent
    sound.dirtyHome sound.recoverable (Nat.zero_le _) layout.nonempty
    (fun _ inNil => absurd inNil List.not_mem_nil) (sound.reads running)
    (all_moveTo _ trivial sound.outside) (installed.atHome sound.recoverable named last)

/-- The header on the disk is cleared. -/
theorem Sound.clears (sound : Sound layout store system) (protocol : Protocol system)
    (ledger : Ledger store system) (running : system.boot = none) {process : ι}
    (place : system.places process = .clearHead) :
    Sound layout store { system.moveTo process .endCommit with
      device := system.device.writeHead layout system.lh } := by
  have atHome := sound.stage running process
  have entered := ledger.entered running process
  rw [place] at atHome entered
  rw [entered.2]
  refine protocol.sound_commit running place rfl rfl rfl rfl
    (sound.coherent.writeHead _ _) (dirtyHome_update sound.dirtyHome _)
    (recoverable_cleared atHome _) sound.few sound.fits sound.homes (fun address isHome => ?_)
    (all_moveTo _ trivial sound.outside) (readHead_cleared _ _)
  rw [writeHead_bread _ _ (ne_of_home isHome (start_not_home layout))]
  exact sound.reads running address isHome

/-- The commit is over, and operations may begin again. -/
theorem Sound.endCommit (sound : Sound layout store system) (protocol : Protocol system)
    (running : system.boot = none) {process : ι} (place : system.places process = .endCommit) :
    Sound layout store (system.endCommit process) := by
  have clean := sound.stage running process
  rw [place] at clean
  have outside : ∀ other, ((system.moveTo process .idle).places other).Outside layout :=
    all_moveTo _ trivial sound.outside
  exact sound.of_same running rfl rfl rfl (fun other => (outside other).wakeup) (fun _ => clean)
    ((protocol.endCommit place).all_open stage_of_not_commits rfl)

/-- The last operation hands over to its commit what has been logged. -/
theorem Sound.endOp (sound : Sound layout store system) (protocol : Protocol system)
    (running : system.boot = none) {process : ι} {written : List (BitVec 32)}
    (place : system.places process = .active written) :
    Sound layout store (system.endOp process) := by
  have isOpen := protocol.open_of_operation place rfl
  have clean := sound.clean running isOpen
  have ended := protocol.endOp place
  simp only [System.endOp, isOpen, Bool.false_eq_true, ↓reduceIte] at ended ⊢
  split
  · exact sound.of_same running rfl rfl rfl (all_moveTo _ trivial sound.outside) (fun _ => clean)
      (all_moveTo (Stage layout store system.device.disk system.lh) clean
        (protocol.all_open stage_of_not_commits isOpen))
  · rename_i notLast
    rw [if_neg notLast] at ended
    have outside : ∀ other, ((system.moveTo process .idle).places other).Outside layout :=
      all_moveTo _ trivial sound.outside
    exact sound.of_same running rfl rfl rfl (fun other => (outside other).wakeup) (fun _ => clean)
      (ended.all_open stage_of_not_commits isOpen)

omit [DecidableEq ι] [Fintype ι] in
/-- A step of recovery. -/
theorem Sound.recovers (sound : Sound layout store system) (ledger : Ledger store system)
    (recovers : RecoverStep layout system after) : Sound layout store after := by
  cases recovers with
  | reads boot now =>
    subst now
    obtain ⟨clean, _⟩ := sound.booting _ boot
    have header := sound.bread_log (start_not_home layout)
    have recoverable := sound.recoverable
    refine ⟨sound.coherent.load _, sound.dirtyHome, recoverable, ?_, ?_, ?_, sound.outside, ?_, ?_,
      ?_, ?_⟩
    · rw [header]
      exact recoverable.few
    · rw [header]
      exact recoverable.fits
    · rw [header]
      exact recoverable.homes
    · exact fun running => absurd running (Option.some_ne_none _)
    · exact fun running => absurd running (Option.some_ne_none _)
    · exact fun running => absurd running (Option.some_ne_none _)
    · intro phase isBooting
      obtain rfl := Option.some.inj isBooting
      exact ⟨clean, congrArg readHead header.symm,
        fun k _ before => absurd before (Nat.not_lt_zero k)⟩
  | installs tail blockno boot entry now =>
    subst now
    obtain ⟨clean, named, installed⟩ := sound.booting _ boot
    have copy := sound.bread_copy named entry
    have home := sound.homes blockno (List.mem_of_getElem? entry)
    refine ⟨sound.coherent.copy _ _, dirtyHome_update sound.dirtyHome _, ?_, sound.few, sound.fits,
      sound.homes, sound.outside, ?_, ?_, ?_, ?_⟩
    · rw [copy_disk, copy]
      exact sound.recoverable.write_home home
    · exact fun running => absurd running (Option.some_ne_none _)
    · exact fun running => absurd running (Option.some_ne_none _)
    · exact fun running => absurd running (Option.some_ne_none _)
    · intro phase isBooting
      obtain rfl := Option.some.inj isBooting
      refine ⟨fun address => ?_, ?_, ?_⟩
      · by_cases isBlock : address = blockno.toNat
        · rw [copy_dirty, isBlock, Function.update_self]
        · rw [copy_dirty, Function.update_of_ne isBlock]
          exact clean address
      · rw [copy_disk, Function.update_of_ne (ne_of_home home (start_not_home layout)).symm]
        exact named
      · rw [copy_disk, copy]
        exact installed.install entry
  | installed tail boot last now =>
    subst now
    obtain ⟨clean, named, installed⟩ := sound.booting _ boot
    refine ⟨sound.coherent, sound.dirtyHome, sound.recoverable, Nat.zero_le _, layout.nonempty,
      fun _ inNil => absurd inNil List.not_mem_nil, sound.outside, ?_, ?_, ?_, ?_⟩
    · exact fun running => absurd running (Option.some_ne_none _)
    · exact fun running => absurd running (Option.some_ne_none _)
    · exact fun running => absurd running (Option.some_ne_none _)
    · intro phase isBooting
      obtain rfl := Option.some.inj isBooting
      exact ⟨clean, installed.atHome sound.recoverable named last⟩
  | clears boot now =>
    subst now
    obtain ⟨clean, atHome⟩ := sound.booting _ boot
    obtain ⟨same, _, idle, isEmpty⟩ := ledger.booting _ boot
    rw [isEmpty rfl]
    refine ⟨sound.coherent.writeHead _ _, dirtyHome_update sound.dirtyHome _,
      recoverable_cleared atHome _, Nat.zero_le _, layout.nonempty,
      fun _ inNil => absurd inNil List.not_mem_nil, sound.outside,
      fun _ address isHome => ?_, fun _ _ => readHead_cleared _ _, fun _ process => ?_, ?_⟩
    · rw [writeHead_bread _ _ (ne_of_home isHome (start_not_home layout)),
        sound.coherent.bread_eq (clean address), atHome address isHome, same]
    · rw [idle process]
      trivial
    · exact fun phase isBooting => absurd isBooting.symm (Option.some_ne_none phase)

/-- The next step of a process, with room for what it logs. -/
theorem Sound.next (sound : Sound layout store system) (protocol : Protocol system)
    (ledger : Ledger store system) (running : system.boot = none) {process : ι}
    (room : after.lh.length ≤ logsize ∧ after.lh.length < layout.size)
    (taken : NextStep layout system process after) :
    ∃ events : List (Event ι Nat Block), after.history = system.history ++ events ∧
      Sound layout (replay store events) after := by
  have stage := sound.stage running process
  cases taken with
  | begins place now =>
    have began := sound.beginOp running process
    rw [← now] at began
    unfold System.beginOp at now
    split at now
    · exact ⟨[], by rw [now]; exact (List.append_nil _).symm, began⟩
    · split at now
      · exact ⟨[], by rw [now]; exact (List.append_nil _).symm, began⟩
      · exact ⟨[.begun process], by rw [now]; rfl, began⟩
  | appends written blockno block place now =>
    subst now
    exact ⟨[.wrote blockno.toNat block], rfl,
      sound.append protocol running place room.1 room.2⟩
  | starts place logged now =>
    rw [place] at stage
    exact ⟨[], by rw [now]; exact (List.append_nil _).symm,
      now ▸ sound.goesOn protocol running place rfl (all_moveTo _ trivial sound.outside)
        ⟨stage, fun k _ before => absurd before (Nat.not_lt_zero k)⟩⟩
  | skips place nothing now =>
    rw [place] at stage
    exact ⟨[], by rw [now]; exact (List.append_nil _).symm,
      now ▸ sound.goesOn protocol running place rfl (all_moveTo _ trivial sound.outside) stage⟩
  | copies tail blockno place entry now =>
    exact ⟨[], by rw [now]; exact (List.append_nil _).symm,
      now ▸ sound.copies protocol running place entry⟩
  | copied tail place last now =>
    rw [place] at stage
    refine ⟨[], by rw [now]; exact (List.append_nil _).symm,
      now ▸ sound.goesOn protocol running place rfl (all_moveTo _ trivial sound.outside)
        ⟨stage.1, fun k blockno before entry => stage.2 k blockno ?_ entry⟩⟩
    rw [List.getElem?_eq_none_iff] at last
    omega
  | commits place now =>
    exact ⟨[.committed], by rw [now]; rfl, now ▸ sound.commits protocol ledger running place⟩
  | installs tail blockno place entry now =>
    exact ⟨[], by rw [now]; exact (List.append_nil _).symm,
      now ▸ sound.installs protocol ledger running place entry⟩
  | installed tail place last now =>
    exact ⟨[], by rw [now]; exact (List.append_nil _).symm,
      now ▸ sound.installed protocol running place last⟩
  | clears place now =>
    exact ⟨[], by rw [now]; exact (List.append_nil _).symm,
      now ▸ sound.clears protocol ledger running place⟩
  | finishes place now =>
    exact ⟨[], by rw [now]; exact (List.append_nil _).symm,
      now ▸ sound.endCommit protocol running place⟩

/-- Every step keeps the machine sound, with room for what is logged. -/
theorem Sound.step (sound : Sound layout store system) (protocol : Protocol system)
    (ledger : Ledger store system) {quota : Nat} {label : Label ι}
    (room : after.boot = none → after.lh.length ≤ logsize ∧ after.lh.length < layout.size)
    (taken : step layout quota system label = some after) :
    ∃ events : List (Event ι Nat Block), after.history = system.history ++ events ∧
      Sound layout (replay store events) after := by
  cases label with
  | call process =>
    obtain ⟨up, place, rfl⟩ := step_call taken
    exact ⟨[], (List.append_nil _).symm, sound.moveTo (boot_of_up up) process rfl trivial⟩
  | logWrite process blockno block =>
    obtain ⟨up, written, place, home, _, rfl⟩ := step_logWrite taken
    have running := boot_of_up up
    unfold System.logWrite
    split
    · exact ⟨[], (List.append_nil _).symm, sound.of_same running rfl rfl rfl sound.outside
        (sound.clean running) (sound.stage running)⟩
    · exact ⟨[], (List.append_nil _).symm, sound.moveTo running process rfl home⟩
  | endOp process =>
    obtain ⟨up, written, place, rfl⟩ := step_endOp taken
    refine ⟨[.ended process], ?_, sound.endOp protocol (boot_of_up up) place⟩
    simp only [System.endOp, protocol.open_of_operation place rfl, Bool.false_eq_true, ↓reduceIte]
    split <;> rfl
  | next process =>
    obtain ⟨up, taken⟩ := step_next taken
    have running := boot_of_up up
    exact sound.next protocol ledger running (room (next_boot taken running)) taken
  | kill process =>
    obtain ⟨up, rfl⟩ := step_kill taken
    have running := boot_of_up up
    exact ⟨[], (List.append_nil _).symm, sound.of_same running rfl rfl rfl
      (all_moveTo _ (sound.outside process).wakeup sound.outside) (sound.clean running)
      (all_moveTo _ (sound.stage running process).wakeup (sound.stage running))⟩
  | recover =>
    obtain ⟨_, recovers⟩ := step_recover taken
    refine ⟨[], ?_, sound.recovers ledger recovers⟩
    cases recovers with
    | reads _ now | installs _ _ _ _ now | installed _ _ _ now | clears _ now =>
      rw [now]
      exact (List.append_nil _).symm
  | bread address =>
    obtain rfl := Option.some.inj taken
    exact ⟨[], (List.append_nil _).symm,
      sound.cache rfl rfl (fun _ => load_bread ..) (sound.coherent.load address)⟩
  | recycle address =>
    obtain ⟨clean, rfl⟩ := step_recycle taken
    exact ⟨[], (List.append_nil _).symm,
      sound.cache rfl rfl (fun _ => sound.coherent.evict_bread clean)
        (sound.coherent.evict address)⟩
  | crash =>
    obtain rfl := Option.some.inj taken
    exact ⟨[.crashed], rfl, switchOn_sound sound.recoverable _⟩

end Steps

/-! ## Whole runs -/

section Runs

variable {layout : Layout} {quota : Nat} {disk : Nat → Block} {schedule : List (Label ι)}
  {final : System ι}

/-- The invariant of every run from a disk whose log is clean, with room in the log. -/
theorem run_sound (fits : maxopblocks + 2 * quota ≤ logsize)
    (inside : maxopblocks + 2 * quota < layout.size) (clean : readHead (disk layout.start) = [])
    (ran : exec (step layout quota) (System.switchOn disk []) schedule = some final) :
    Sound layout (replay ⟨disk, disk⟩ final.history) final := by
  have few : quota ≤ maxopblocks := by
    simp only [logsize, maxopblocks] at *
    omega
  have both := exec_invariant (step layout quota) (System.switchOn disk []) (fun labels system =>
    exec (step layout quota) (System.switchOn disk []) labels = some system ∧
      Sound layout (replay ⟨disk, disk⟩ system.history) system)
    ⟨rfl, switchOn_sound (recoverable_clean clean (fun _ _ => rfl)) []⟩ (by
      rintro labels system label next ⟨soFar, sound⟩ taken
      have now := (exec_concat_iff _ _ _ labels label).mpr ⟨system, soFar, taken⟩
      obtain ⟨protocol, ledger, _⟩ := run_ledger soFar
      have room : next.boot = none → next.lh.length ≤ logsize ∧ next.lh.length < layout.size := by
        intro up
        have := (run_admission few now up).room
        omega
      obtain ⟨events, history, soundAfter⟩ := sound.step protocol ledger room taken
      refine ⟨now, ?_⟩
      rw [history, replay_append]
      exact soundAfter) schedule final ran
  exact both.2

/-- Let the log hold what two operations may log, and ten blocks more. Whatever crashes there
have been, a running system reads at every home address what was written last among the writes
that survived, and what survives a crash is what could be read at some moment at which no
operation was in progress. -/
theorem crashes_keep_whole_operations (layout : Layout) (quota : Nat)
    (fits : maxopblocks + 2 * quota ≤ logsize) (inside : maxopblocks + 2 * quota < layout.size)
    (disk : Nat → Block) (clean : readHead (disk layout.start) = []) (schedule : List (Label ι))
    (final : System ι)
    (ran : exec (step layout quota) (System.switchOn disk []) schedule = some final) :
    (final.boot = none → ∀ address, layout.home address = true →
      final.device.bread address = (replay ⟨disk, disk⟩ final.history).current address) ∧
    ∃ before after, final.history = before ++ after ∧
      (∀ operation, inProgress before operation = false) ∧
      (replay ⟨disk, disk⟩ final.history).durable = (replay ⟨disk, disk⟩ before).current := by
  obtain ⟨_, _, due⟩ := run_ledger ran
  exact ⟨(run_sound fits inside clean ran).reads,
    durable_between_operations disk final.history due⟩

/-- One operation changes a block, and the machine crashes right after its commit. -/
def crashAfterCommit : List (Label Unit) :=
  List.replicate 3 .recover ++
    [.call (), .next (), .logWrite () 100#32 (fun _ => 7#32), .next (), .endOp ()] ++
    List.replicate 4 (.next ()) ++ .crash :: List.replicate 4 .recover

/-- The block that was committed is read after the crash. -/
theorem crashes_keep_whole_operations_one_block :
    ∃ final, exec (step mkfsLayout 9) (System.switchOn (fun _ _ => 0#32) []) crashAfterCommit =
      some final ∧ maxopblocks + 2 * 9 ≤ logsize ∧ maxopblocks + 2 * 9 < mkfsLayout.size ∧
      final.boot = none ∧ final.device.bread 100 = (fun _ => 7#32) ∧
      (final.boot = none → ∀ address, mkfsLayout.home address = true →
        final.device.bread address =
          (replay ⟨fun _ _ => 0#32, fun _ _ => 0#32⟩ final.history).current address) ∧
      ∃ before after, final.history = before ++ after ∧
        (∀ operation, inProgress before operation = false) ∧
        (replay ⟨fun _ _ => 0#32, fun _ _ => 0#32⟩ final.history).durable =
          (replay ⟨fun _ _ => 0#32, fun _ _ => 0#32⟩ before).current :=
  ⟨_, rfl, by decide, by decide, rfl, rfl, crashes_keep_whole_operations mkfsLayout 9 (by decide)
    (by decide) (fun _ _ => 0#32) rfl crashAfterCommit _ rfl⟩

/-- How many steps recovery may still take. -/
def System.bootSteps (system : System ι) : Nat :=
  match system.boot with
  | none => 0
  | some .clearHead => 1
  | some (.installTrans tail) => system.lh.length - tail + 2
  | some .readHead => logsize + 3

omit [DecidableEq ι] [Fintype ι] in
/-- Every step of recovery brings it nearer to its end. -/
theorem bootSteps_decreases {store : Store Nat Block} {system after : System ι}
    (sound : Sound layout store after) (recovers : RecoverStep layout system after) :
    after.bootSteps < system.bootSteps := by
  cases recovers with
  | reads boot now =>
    have few := sound.few
    simp only [now] at few
    simp only [System.bootSteps, now, boot]
    omega
  | installs tail blockno boot entry now =>
    have before := lt_of_entry entry
    simp only [System.bootSteps, now, boot]
    omega
  | installed tail boot last now =>
    simp only [System.bootSteps, now, boot]
    omega
  | clears boot now =>
    simp [System.bootSteps, now, boot]

omit [DecidableEq ι] [Fintype ι] in
/-- Recovery goes on until it is over. -/
theorem recover_isSome (layout : Layout) {system : System ι} (booting : system.boot ≠ none) :
    ∃ after, system.recover layout = some after := by
  cases boot : system.boot with
  | none => exact absurd boot booting
  | some phase =>
    cases phase with
    | readHead => simp [System.recover, boot]
    | clearHead => simp [System.recover, boot]
    | installTrans tail => cases entry : system.lh[tail]? <;> simp [System.recover, boot, entry]

omit [Fintype ι] in
/-- Recovery comes to its end, and does not change what can be recovered. -/
theorem recovery_completes (quota : Nat) {store : Store Nat Block} {system : System ι}
    (sound : Sound layout store system) (ledger : Ledger store system)
    (running : system.panicked = false) :
    ∃ steps after, steps ≤ system.bootSteps ∧
      exec (step layout quota) system (List.replicate steps .recover) = some after ∧
      after.boot = none ∧ Sound layout store after := by
  let recoverOnly (system : System ι) (_ : Unit) : Option (System ι) :=
    step layout quota system .recover
  let recovering (system : System ι) : Prop :=
    Sound layout store system ∧ Ledger store system ∧ system.panicked = false
  have preserved : ∀ system label after, recovering system →
      recoverOnly system label = some after → recovering after := by
    rintro system _ after ⟨sound, ledger, running⟩ taken
    obtain ⟨_, recovers⟩ := step_recover taken
    refine ⟨sound.recovers ledger recovers, ledger.recovers recovers, ?_⟩
    cases recovers with
    | reads _ now | installs _ _ _ _ now | installed _ _ _ now | clears _ now =>
      rw [now]
      exact running
  have decreases : ∀ system label after, recovering system →
      recoverOnly system label = some after → after.bootSteps < system.bootSteps := by
    rintro system label after holds taken
    exact bootSteps_decreases (preserved system label after holds taken).1 (step_recover taken).2
  have goesOn : ∀ system, recovering system → ¬ system.boot = none →
      ∃ label after, recoverOnly system label = some after := by
    rintro system ⟨_, _, running⟩ booting
    obtain ⟨after, taken⟩ := recover_isSome layout booting
    exact ⟨(), after, by simp [recoverOnly, step, running, taken]⟩
  obtain ⟨rest, after, ran, finished⟩ := exec_completes recoverOnly recovering System.bootSteps
    preserved decreases (fun system => system.boot = none) goesOn system ⟨sound, ledger, running⟩
  have short := exec_length_le recoverOnly recovering System.bootSteps preserved decreases
    system after ⟨sound, ledger, running⟩ rest ran
  have kept := exec_invariant recoverOnly system (fun _ state => recovering state)
    ⟨sound, ledger, running⟩
    (fun _ state label next holds taken => preserved state label next holds taken)
    rest after ran
  refine ⟨rest.length, after, by omega, ?_, finished, kept.1⟩
  rw [exec_map, List.map_const'] at ran
  exact ran

/-- Let the log hold what two operations may log, and ten blocks more. The machine can crash at
any moment. It is up again after a few steps, whatever their number was before, and then reads
what was durable. -/
theorem reboot_reads_what_is_durable (layout : Layout) (quota : Nat)
    (fits : maxopblocks + 2 * quota ≤ logsize) (inside : maxopblocks + 2 * quota < layout.size)
    (disk : Nat → Block) (clean : readHead (disk layout.start) = []) (schedule : List (Label ι))
    (final : System ι)
    (ran : exec (step layout quota) (System.switchOn disk []) schedule = some final) :
    ∃ steps after, steps ≤ logsize + 3 ∧
      exec (step layout quota) final (.crash :: List.replicate steps .recover) = some after ∧
      after.boot = none ∧ ∀ address, layout.home address = true →
        after.device.bread address = (replay ⟨disk, disk⟩ final.history).durable address := by
  have sound := run_sound fits inside clean ran
  obtain ⟨steps, after, few, recovered, up, soundAfter⟩ := recovery_completes quota
    (switchOn_sound sound.recoverable (final.history ++ [.crashed])) (ledger_switchOn ..) rfl
  refine ⟨steps, after, few, ?_, up, soundAfter.reads up⟩
  rw [exec_cons]
  exact recovered

/-- A second crash, after the first one has been recovered from. -/
theorem reboot_reads_what_is_durable_one_block :
    ∃ final, exec (step mkfsLayout 9) (System.switchOn (fun _ _ => 0#32) []) crashAfterCommit =
      some final ∧ maxopblocks + 2 * 9 ≤ logsize ∧ maxopblocks + 2 * 9 < mkfsLayout.size ∧
      ∃ steps after, steps ≤ logsize + 3 ∧
        exec (step mkfsLayout 9) final (.crash :: List.replicate steps .recover) = some after ∧
        after.boot = none ∧ ∀ address, mkfsLayout.home address = true →
          after.device.bread address =
            (replay ⟨fun _ _ => 0#32, fun _ _ => 0#32⟩ final.history).durable address :=
  ⟨_, rfl, by decide, by decide, reboot_reads_what_is_durable mkfsLayout 9 (by decide) (by decide)
    (fun _ _ => 0#32) rfl crashAfterCommit _ rfl⟩

end Runs

end OsLabwork.Kernel.Logging
