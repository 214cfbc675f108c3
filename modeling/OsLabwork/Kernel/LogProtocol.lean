import OsLabwork.Kernel.Log
import OsLabwork.Library.Exclusion
import OsLabwork.Library.Tallies

/-!
# Who commits, and what has been committed

The flags and counters of the log agree with what the processes do: one process commits at a
time, and while it does no operation is in progress.

The history says which writes have been committed. A write that has not been has its number
in the header in memory, from the moment it is logged until the header is written to the disk.
When a commit is over, everything is committed and the header in memory is empty.

Nothing here depends on what is on the disk or in the cache, nor on whether the blocks that
are logged fit into the log.
-/

namespace OsLabwork.Kernel.Logging

open Exclusion Histories Schedules Tallies Transactions

/-- Whether a process is in `commit`, or at the end of `end_op` behind it. -/
def Place.commits : Place → Bool
  | .commit | .writeLog _ | .writeHead | .installTrans _ | .clearHead | .endCommit => true
  | _ => false

/-- The number of operations of a process that are in progress. -/
def Place.operations : Place → Nat
  | .active _ | .logWrite _ _ _ => 1
  | _ => 0

/-- Waking a process does not make it commit. -/
@[simp] theorem wakeup_commits (place : Place) : place.wakeup.commits = place.commits := by
  cases place <;> rfl

/-- Waking a process does not begin its operation. -/
@[simp] theorem wakeup_operations (place : Place) : place.wakeup.operations = place.operations := by
  cases place <;> rfl

variable {ι : Type} [DecidableEq ι] [Fintype ι]

/-- The flags and counters of the log agree with what the processes do. -/
structure Protocol (system : System ι) : Prop where
  lock : Exclusive (fun process => (system.places process).commits = true)
    (system.committing = false)
  count : system.outstanding = tally Place.operations system.places
  quiet : system.committing = true → system.outstanding = 0
  progress : ∀ process,
    inProgress system.history process = decide ((system.places process).operations = 1)

section Protocol

variable {system after : System ι}

/-- While somebody commits, no operation is in progress. -/
theorem Protocol.operations_eq_zero (protocol : Protocol system)
    (committing : system.committing = true) (process : ι) :
    (system.places process).operations = 0 := by
  have none : tally Place.operations system.places = 0 := by
    have := protocol.count.symm.trans (protocol.quiet committing)
    omega
  have share := weigh_le_tally Place.operations system.places process
  omega

/-- Whoever is in `commit` has set the flag. -/
theorem Protocol.committing_of_commits (protocol : Protocol system) {process : ι} {place : Place}
    (atPlace : system.places process = place) (commits : place.commits = true) :
    system.committing = true := by
  cases committing : system.committing with
  | true => rfl
  | false =>
    have nobody := protocol.lock.free_iff.mp committing process
    exact absurd commits (atPlace ▸ nobody)

/-- While an operation is in progress, nobody commits. -/
theorem Protocol.open_of_operation (protocol : Protocol system) {process : ι} {place : Place}
    (atPlace : system.places process = place) (inOperation : place.operations = 1) :
    system.committing = false := by
  cases committing : system.committing with
  | false => rfl
  | true =>
    have none := protocol.operations_eq_zero committing process
    rw [atPlace, inOperation] at none
    exact absurd none Nat.one_ne_zero

/-- An operation in progress is counted. -/
theorem Protocol.outstanding_pos (protocol : Protocol system) {process : ι} {place : Place}
    (atPlace : system.places process = place) (inOperation : place.operations = 1) :
    1 ≤ system.outstanding := by
  have share := weigh_le_tally Place.operations system.places process
  rw [atPlace, inOperation] at share
  have := protocol.count
  omega

/-- What is said of committing processes only holds of all while none commits. -/
theorem Protocol.all_open (protocol : Protocol system) {claim : Place → Prop}
    (others : ∀ place : Place, place.commits = false → claim place)
    (isOpen : system.committing = false) (process : ι) : claim (system.places process) :=
  others _ (Bool.eq_false_iff.mpr (protocol.lock.free_iff.mp isOpen process))

/-- What is said of committing processes only holds of all if it holds of the one that
commits. -/
theorem Protocol.all_update (protocol : Protocol system) {claim : Place → Prop}
    (others : ∀ place : Place, place.commits = false → claim place) {process : ι}
    {before place : Place} (atPlace : system.places process = before)
    (commits : before.commits = true) (here : claim place) (other : ι) :
    claim (Function.update system.places process place other) := by
  by_cases isProcess : other = process
  · rw [isProcess, Function.update_self]
    exact here
  · rw [Function.update_of_ne isProcess]
    refine others _ (Bool.eq_false_iff.mpr (fun alsoCommits => ?_))
    exact isProcess (protocol.lock.unique other process alsoCommits (atPlace ▸ commits))

/-- Only flags, counters and places matter here. -/
theorem Protocol.of_same (protocol : Protocol system)
    (outstanding : after.outstanding = system.outstanding)
    (committing : after.committing = system.committing)
    (history : inProgress after.history = inProgress system.history)
    (commits : ∀ process, (after.places process).commits = (system.places process).commits)
    (operations : ∀ process,
      (after.places process).operations = (system.places process).operations) :
    Protocol after where
  lock := by simpa only [commits, committing] using protocol.lock
  count := by simpa only [outstanding, tally_congr operations] using protocol.count
  quiet := by simpa only [outstanding, committing] using protocol.quiet
  progress process := by simpa only [history, operations] using protocol.progress process

/-- Blocks and buffers do not matter here. -/
theorem Protocol.of_places (protocol : Protocol system)
    (outstanding : after.outstanding = system.outstanding)
    (committing : after.committing = system.committing)
    (history : inProgress after.history = inProgress system.history)
    (places : after.places = system.places) : Protocol after :=
  protocol.of_same outstanding committing history (fun process => by simp only [places])
    (fun process => by simp only [places])

/-- A process may go to a place that counts for the same. -/
theorem Protocol.moveTo (protocol : Protocol system) {process : ι} {before place : Place}
    (atPlace : system.places process = before) (commits : place.commits = before.commits)
    (operations : place.operations = before.operations) :
    Protocol (system.moveTo process place) := by
  refine protocol.of_same rfl rfl rfl (fun other => ?_) (fun other => ?_) <;>
  · by_cases isProcess : other = process
    · simp only [System.moveTo, isProcess, Function.update_self, atPlace, commits, operations]
    · simp only [System.moveTo, Function.update_of_ne isProcess]

/-- Processes that are woken count for the same. -/
theorem Protocol.wakeup (protocol : Protocol system) : Protocol system.wakeup :=
  protocol.of_same rfl rfl rfl (fun _ => wakeup_commits _) (fun _ => wakeup_operations _)

/-- One process takes or gives up a share in what is counted. -/
theorem Protocol.change (protocol : Protocol system) {process : ι} {before place : Place}
    (atPlace : system.places process = before)
    (places : after.places = Function.update system.places process place)
    (lock : Move (before.commits = true) (place.commits = true)
      (system.committing = false) (after.committing = false))
    (count : after.outstanding + before.operations = system.outstanding + place.operations)
    (quiet : after.committing = true → after.outstanding = 0)
    (history : inProgress after.history =
      Function.update (inProgress system.history) process (decide (place.operations = 1))) :
    Protocol after := by
  have tallied := tally_update Place.operations system.places process place
  subst atPlace
  refine ⟨?_, ?_, quiet, fun other => ?_⟩
  · refine protocol.lock.move process (fun other isOther => ?_) ?_
    · simp only [places, Function.update_of_ne isOther]
    · simpa only [places, Function.update_self] using lock
  · have := protocol.count
    simp only [places]
    omega
  · by_cases isProcess : other = process
    · simp only [history, places, isProcess, Function.update_self]
    · simp only [history, places, Function.update_of_ne isProcess]
      exact protocol.progress other

/-- When the machine is switched on, nobody does anything. -/
theorem protocol_switchOn (disk : Nat → Block) {history : List (Event ι Nat Block)}
    (nobody : ∀ process, inProgress history process = false) :
    Protocol (System.switchOn disk history) where
  lock := exclusive_initially (fun _ => Bool.noConfusion) rfl
  count := by simp [System.switchOn, tally, Place.operations]
  quiet := fun committing => Bool.noConfusion committing
  progress process := by simp [System.switchOn, nobody process, Place.operations]

/-- An operation that is let in is counted. -/
theorem Protocol.beginOp (protocol : Protocol system) {process : ι}
    (atBegin : system.places process = .beginOp) : Protocol (system.beginOp process) := by
  unfold System.beginOp
  split
  · exact protocol.moveTo atBegin rfl rfl
  · split
    · exact protocol.moveTo atBegin rfl rfl
    · rename_i notCommitting _
      refine protocol.change atBegin rfl (.stays Iff.rfl Iff.rfl) ?_
        (fun committing => absurd committing notCommitting) (inProgress_concat ..)
      simp [Place.operations]

/-- The checks of `log_write` count nothing. -/
theorem Protocol.logWrite (protocol : Protocol system) (layout : Layout) {process : ι}
    {written : List (BitVec 32)} (active : system.places process = .active written)
    (blockno : BitVec 32) (block : Block) :
    Protocol (system.logWrite layout process written blockno block) := by
  unfold System.logWrite
  split
  · exact protocol.of_places rfl rfl rfl rfl
  · exact protocol.moveTo active rfl rfl

/-- A block that is logged is logged by an operation in progress. -/
theorem Protocol.append (protocol : Protocol system) {process : ι} {written : List (BitVec 32)}
    {blockno : BitVec 32} {block : Block}
    (place : system.places process = .logWrite written blockno block) :
    Protocol (system.append process written blockno block) := by
  have moved : Protocol (system.moveTo process (.active (absorb written blockno))) :=
    protocol.moveTo place rfl rfl
  exact moved.of_places rfl rfl (inProgress_concat ..) rfl

/-- An operation that ends is not counted any more, and the last one sets the flag. -/
theorem Protocol.endOp (protocol : Protocol system) {process : ι} {written : List (BitVec 32)}
    (active : system.places process = .active written) : Protocol (system.endOp process) := by
  have isOpen := protocol.open_of_operation active rfl
  simp only [System.endOp, isOpen, Bool.false_eq_true, ↓reduceIte]
  split
  · rename_i last
    refine protocol.change active rfl (.enters isOpen rfl Bool.noConfusion) ?_
      (fun _ => last) (inProgress_concat ..)
    simp [Place.operations]
  · have ended : Protocol { (system.moveTo process .idle).note (.ended process) with
        outstanding := system.outstanding - 1 } := by
      refine protocol.change active rfl (.stays Iff.rfl Iff.rfl) ?_ ?_ (inProgress_concat ..)
      · simp [Place.operations]
      · exact fun committing => absurd (isOpen.symm.trans committing) Bool.false_ne_true
    exact ended.wakeup

/-- The end of a commit clears the flag. -/
theorem Protocol.endCommit (protocol : Protocol system) {process : ι}
    (place : system.places process = .endCommit) : Protocol (system.endCommit process) := by
  have idle : inProgress system.history process = false := by
    simp [protocol.progress process, place, Place.operations]
  have finished : Protocol { system.moveTo process .idle with committing := false } :=
    protocol.change place rfl (.leaves rfl Bool.noConfusion rfl) rfl Bool.noConfusion
      (Function.update_eq_self_iff.mpr idle.symm).symm
  exact finished.wakeup

/-- The next step of a process. -/
theorem Protocol.next (protocol : Protocol system) {layout : Layout} {process : ι}
    (taken : NextStep layout system process after) : Protocol after := by
  cases taken with
  | begins place now => exact now ▸ protocol.beginOp place
  | appends written blockno block place now => exact now ▸ protocol.append place
  | starts place _ now => exact now ▸ protocol.moveTo place rfl rfl
  | skips place _ now => exact now ▸ protocol.moveTo place rfl rfl
  | copied _ place _ now => exact now ▸ protocol.moveTo place rfl rfl
  | copies tail _ place _ now =>
    have moved : Protocol (system.moveTo process (.writeLog (tail + 1))) :=
      protocol.moveTo place rfl rfl
    exact now ▸ moved.of_places rfl rfl rfl rfl
  | commits place now =>
    have moved : Protocol (system.moveTo process (.installTrans 0)) :=
      protocol.moveTo place rfl rfl
    exact now ▸ moved.of_places rfl rfl (inProgress_concat ..) rfl
  | installs tail _ place _ now =>
    have moved : Protocol (system.moveTo process (.installTrans (tail + 1))) :=
      protocol.moveTo place rfl rfl
    exact now ▸ moved.of_places rfl rfl rfl rfl
  | installed _ place _ now =>
    have moved : Protocol (system.moveTo process .clearHead) := protocol.moveTo place rfl rfl
    exact now ▸ moved.of_places rfl rfl rfl rfl
  | clears place now =>
    have moved : Protocol (system.moveTo process .endCommit) := protocol.moveTo place rfl rfl
    exact now ▸ moved.of_places rfl rfl rfl rfl
  | finishes place now => exact now ▸ protocol.endCommit place

/-- Every step keeps the protocol. -/
theorem Protocol.step (protocol : Protocol system) {layout : Layout} {quota : Nat}
    {label : Label ι} (taken : step layout quota system label = some after) : Protocol after := by
  cases label with
  | call process =>
    obtain ⟨_, place, now⟩ := step_call taken
    exact now ▸ protocol.moveTo place rfl rfl
  | logWrite process blockno block =>
    obtain ⟨_, written, active, _, _, now⟩ := step_logWrite taken
    exact now ▸ protocol.logWrite layout active blockno block
  | endOp process =>
    obtain ⟨_, written, active, now⟩ := step_endOp taken
    exact now ▸ protocol.endOp active
  | next process => exact protocol.next (step_next taken).2
  | kill process =>
    obtain ⟨_, now⟩ := step_kill taken
    exact now ▸ protocol.moveTo rfl (wakeup_commits _) (wakeup_operations _)
  | recover =>
    obtain ⟨_, recovers⟩ := step_recover taken
    cases recovers with
    | reads _ now | installs _ _ _ _ now | installed _ _ _ now | clears _ now =>
      exact now ▸ protocol.of_places rfl rfl rfl rfl
  | bread address =>
    obtain rfl := Option.some.inj taken
    exact protocol.of_places rfl rfl rfl rfl
  | recycle address =>
    obtain ⟨_, rfl⟩ := step_recycle taken
    exact protocol.of_places rfl rfl rfl rfl
  | crash =>
    obtain rfl := Option.some.inj taken
    exact protocol_switchOn _ (fun _ => by simp [Transactions.progress])

end Protocol

/-! ## What has been committed -/

/-- What is not committed has been logged. -/
def Logged (store : Store Nat Block) (lh : List (BitVec 32)) : Prop :=
  ∀ address, (∀ blockno ∈ lh, blockno.toNat ≠ address) →
    store.current address = store.durable address

/-- What has been committed while a process is at some place. -/
def Entered (store : Store Nat Block) (lh : List (BitVec 32)) : Place → Prop
  | .commit | .writeLog _ | .writeHead => Logged store lh
  | .installTrans _ => store.durable = store.current
  | .clearHead | .endCommit => store.durable = store.current ∧ lh = []
  | .idle | .beginOp | .asleep | .active _ | .logWrite _ _ _ => True

/-- Processes that do not commit say nothing about it. -/
theorem entered_of_not_commits (store : Store Nat Block) (lh : List (BitVec 32)) (place : Place)
    (notCommits : place.commits = false) : Entered store lh place := by
  cases place <;> trivial

/-- A process that is woken had nothing to do with a commit. -/
theorem Entered.wakeup {store : Store Nat Block} {lh : List (BitVec 32)} {place : Place}
    (entered : Entered store lh place) : Entered store lh place.wakeup := by
  revert entered
  cases place <;> exact id

/-- With everything committed, nothing needs to be logged. -/
theorem logged_of_same {store : Store Nat Block} (same : store.durable = store.current)
    (lh : List (BitVec 32)) : Logged store lh := fun address _ => congrFun same.symm address

/-- With nothing logged, everything is committed. -/
theorem Logged.same {store : Store Nat Block} (logged : Logged store []) :
    store.durable = store.current :=
  funext fun address => (logged address (fun _ inNil => absurd inNil List.not_mem_nil)).symm

/-- The header in memory accounts for what has not been committed. -/
structure Ledger (store : Store Nat Block) (system : System ι) : Prop where
  logged : system.boot = none → system.committing = false → Logged store system.lh
  entered : system.boot = none → ∀ process, Entered store system.lh (system.places process)
  booting : ∀ boot, system.boot = some boot → store.durable = store.current ∧
    system.committing = false ∧ (∀ process, system.places process = .idle) ∧
    (boot = .clearHead → system.lh = [])

section Ledger

variable {store : Store Nat Block} {layout : Layout} {system after : System ι}

omit [DecidableEq ι] [Fintype ι] in
/-- Processes run only when recovery is over. -/
theorem boot_of_up (up : system.up = true) : system.boot = none := by
  rw [System.up, Bool.and_eq_true] at up
  exact Option.isNone_iff_eq_none.mp up.1

omit [Fintype ι] in
/-- Processes do not start a recovery. -/
theorem next_boot {process : ι} (taken : NextStep layout system process after)
    (running : system.boot = none) : after.boot = none := by
  cases taken with
  | begins _ now =>
    unfold System.beginOp at now
    split at now
    · rw [now]
      exact running
    · split at now <;> (rw [now]; exact running)
  | appends _ _ _ _ now | starts _ _ now | skips _ _ now | copies _ _ _ _ now | copied _ _ _ now
  | commits _ now | installs _ _ _ _ now | installed _ _ _ now | clears _ now | finishes _ now =>
    rw [now]
    exact running

omit [DecidableEq ι] [Fintype ι] in
/-- Blocks and buffers do not matter here. -/
theorem Ledger.of_same (ledger : Ledger store system) (lh : after.lh = system.lh)
    (boot : after.boot = system.boot) (committing : after.committing = system.committing)
    (places : after.places = system.places) : Ledger store after where
  logged := by simpa only [lh, boot, committing] using ledger.logged
  entered := by simpa only [lh, boot, places] using ledger.entered
  booting := by simpa only [lh, boot, committing, places] using ledger.booting

omit [DecidableEq ι] [Fintype ι] in
/-- While processes run, only the running system has to be looked at. -/
theorem ledger_of_running (running : after.boot = none)
    (logged : after.committing = false → Logged store after.lh)
    (entered : ∀ process, Entered store after.lh (after.places process)) : Ledger store after where
  logged _ := logged
  entered _ := entered
  booting phase isBooting := absurd (running.symm.trans isBooting) (Option.some_ne_none phase).symm

omit [DecidableEq ι] [Fintype ι] in
/-- When the machine is switched on, what is durable is all there is. -/
theorem ledger_switchOn (disk value : Nat → Block) (history : List (Event ι Nat Block)) :
    Ledger ⟨value, value⟩ (System.switchOn disk history) where
  logged running := absurd running (Option.some_ne_none _)
  entered running := absurd running (Option.some_ne_none _)
  booting boot isBooting := by
    obtain rfl := Option.some.inj isBooting
    exact ⟨rfl, rfl, fun _ => rfl, by simp⟩

omit [Fintype ι] in
/-- What holds of all processes holds after one of them has moved. -/
theorem all_moveTo (claim : Place → Prop) {process : ι} {place : Place} (here : claim place)
    (others : ∀ other, claim (system.places other)) (other : ι) :
    claim ((system.moveTo process place).places other) := by
  by_cases isProcess : other = process
  · simpa only [System.moveTo, isProcess, Function.update_self] using here
  · simpa only [System.moveTo, Function.update_of_ne isProcess] using others other

omit [Fintype ι] in
/-- A process goes to a place at which it does not commit. -/
theorem Ledger.moveTo (ledger : Ledger store system) (running : system.boot = none) (process : ι)
    {place : Place} (notCommits : place.commits = false) :
    Ledger store (system.moveTo process place) :=
  ledger_of_running running (ledger.logged running)
    (all_moveTo _ (entered_of_not_commits store _ place notCommits) (ledger.entered running))

/-- A step of the process that commits. -/
theorem Protocol.ledger_commit (protocol : Protocol system) (running : system.boot = none)
    {process : ι} {before : Place} (atPlace : system.places process = before)
    (commits : before.commits = true) {place : Place} (boot : after.boot = system.boot)
    (committing : after.committing = system.committing)
    (places : after.places = Function.update system.places process place)
    (entered : Entered store after.lh place) : Ledger store after := by
  refine ledger_of_running (boot.trans running) (fun isOpen => ?_) (fun other => ?_)
  · rw [committing, protocol.committing_of_commits atPlace commits] at isOpen
    exact Bool.noConfusion isOpen
  · rw [places]
    exact protocol.all_update (entered_of_not_commits store _) atPlace commits entered other

omit [Fintype ι] in
/-- A process looks at the log in `begin_op`. -/
theorem Ledger.beginOp (ledger : Ledger store system) (running : system.boot = none)
    (process : ι) : Ledger store (system.beginOp process) := by
  unfold System.beginOp
  split
  · exact ledger.moveTo running process rfl
  · split
    · exact ledger.moveTo running process rfl
    · have moved : Ledger store (system.moveTo process (.active [])) :=
        ledger.moveTo running process rfl
      exact moved.of_same rfl rfl rfl rfl

/-- A write is logged. -/
theorem Ledger.append (ledger : Ledger store system) (protocol : Protocol system)
    (running : system.boot = none) {process : ι} {written : List (BitVec 32)}
    {blockno : BitVec 32} {block : Block}
    (place : system.places process = .logWrite written blockno block) :
    Ledger { store with current := Function.update store.current blockno.toNat block }
      (system.append process written blockno block) := by
  have isOpen := protocol.open_of_operation place rfl
  have nobody := (protocol.append place).all_open (entered_of_not_commits
    { store with current := Function.update store.current blockno.toNat block }
    (absorb system.lh blockno)) isOpen
  refine ledger_of_running running (fun _ address absent => ?_) nobody
  simp only [System.append, mem_absorb] at absent
  have different : address ≠ blockno.toNat := (absent blockno (Or.inr rfl)).symm
  simp only [Function.update_of_ne different]
  exact ledger.logged running isOpen address (fun other inLog => absent other (Or.inl inLog))

/-- The last operation hands over to its commit what has been logged. -/
theorem Ledger.endOp (ledger : Ledger store system) (protocol : Protocol system)
    (running : system.boot = none) {process : ι} {written : List (BitVec 32)}
    (active : system.places process = .active written) : Ledger store (system.endOp process) := by
  have isOpen := protocol.open_of_operation active rfl
  have logged := ledger.logged running isOpen
  have ended := protocol.endOp active
  simp only [System.endOp, isOpen, Bool.false_eq_true, ↓reduceIte] at ended ⊢
  split
  · exact ledger_of_running running (fun _ => logged) (all_moveTo (Entered store system.lh) logged
      (protocol.all_open (entered_of_not_commits store _) isOpen))
  · rename_i notLast
    rw [if_neg notLast] at ended
    exact ledger_of_running running (fun _ => logged)
      (ended.all_open (entered_of_not_commits store _) isOpen)

/-- A commit is over, and everything is committed. -/
theorem Ledger.endCommit (ledger : Ledger store system) (protocol : Protocol system)
    (running : system.boot = none) {process : ι}
    (place : system.places process = .endCommit) : Ledger store (system.endCommit process) := by
  have entered := ledger.entered running process
  rw [place] at entered
  exact ledger_of_running running (fun _ => logged_of_same entered.1 _)
    ((protocol.endCommit place).all_open (entered_of_not_commits store _) rfl)

/-- The next step of a process, and what it adds to the history. -/
theorem Ledger.next (ledger : Ledger store system) (protocol : Protocol system)
    (running : system.boot = none) {process : ι}
    (taken : NextStep layout system process after) :
    ∃ events : List (Event ι Nat Block), after.history = system.history ++ events ∧
      Justified CommitDue system.history events ∧ Ledger (replay store events) after := by
  have entered := ledger.entered running process
  cases taken with
  | begins place now =>
    have began := ledger.beginOp running process
    rw [← now] at began
    unfold System.beginOp at now
    split at now
    · exact ⟨[], by rw [now]; exact (List.append_nil _).symm, trivial, began⟩
    · split at now
      · exact ⟨[], by rw [now]; exact (List.append_nil _).symm, trivial, began⟩
      · exact ⟨[.begun process], by rw [now]; rfl, ⟨trivial, trivial⟩, began⟩
  | appends written blockno block place now =>
    exact ⟨[.wrote blockno.toNat block], by rw [now]; rfl, ⟨trivial, trivial⟩,
      now ▸ ledger.append protocol running place⟩
  | starts place _ now | copies _ _ place _ now | copied _ place _ now | installs _ _ place _ now
  | clears place now =>
    rw [place] at entered
    exact ⟨[], by rw [now]; exact (List.append_nil _).symm, trivial,
      now ▸ protocol.ledger_commit running place rfl rfl rfl rfl entered⟩
  | skips place nothing now =>
    rw [place] at entered
    refine ⟨[], by rw [now]; exact (List.append_nil _).symm, trivial,
      now ▸ protocol.ledger_commit running place rfl rfl rfl rfl ⟨?_, nothing⟩⟩
    exact Logged.same (nothing ▸ entered)
  | commits place now =>
    refine ⟨[.committed], by rw [now]; rfl, ⟨fun operation => ?_, trivial⟩,
      now ▸ protocol.ledger_commit running place rfl rfl rfl rfl rfl⟩
    have committing := protocol.committing_of_commits place rfl
    rw [protocol.progress, protocol.operations_eq_zero committing]
    rfl
  | installed _ place _ now =>
    rw [place] at entered
    exact ⟨[], by rw [now]; exact (List.append_nil _).symm, trivial,
      now ▸ protocol.ledger_commit running place rfl rfl rfl rfl ⟨entered, rfl⟩⟩
  | finishes place now =>
    exact ⟨[], by rw [now]; exact (List.append_nil _).symm, trivial,
      now ▸ ledger.endCommit protocol running place⟩

omit [DecidableEq ι] [Fintype ι] in
/-- A step of recovery. -/
theorem Ledger.recovers (ledger : Ledger store system)
    (recovers : RecoverStep layout system after) : Ledger store after := by
  have goesOn : ∀ {phase next}, system.boot = some phase → after.boot = some next →
      after.committing = system.committing → after.places = system.places →
      (next = .clearHead → after.lh = []) → Ledger store after := by
    intro phase next boot booting committing places nothing
    obtain ⟨same, isOpen, idle, _⟩ := ledger.booting _ boot
    refine ⟨fun running => ?_, fun running => ?_, fun phase isBooting => ?_⟩
    · exact absurd (booting.symm.trans running) (Option.some_ne_none next)
    · exact absurd (booting.symm.trans running) (Option.some_ne_none next)
    · obtain rfl := Option.some.inj (booting.symm.trans isBooting)
      exact ⟨same, committing.trans isOpen, fun process => by rw [places]; exact idle process,
        nothing⟩
  cases recovers with
  | reads boot now => exact now ▸ goesOn boot (by rw [now]) (by rw [now]) (by rw [now]) (by simp)
  | installs _ _ boot _ now =>
    exact now ▸ goesOn boot (by rw [now]) (by rw [now]) (by rw [now]) (by simp)
  | installed _ boot _ now =>
    exact now ▸ goesOn boot (by rw [now]) (by rw [now]) (by rw [now]) (fun _ => by rw [now])
  | clears boot now =>
    subst now
    obtain ⟨same, _, idle, _⟩ := ledger.booting _ boot
    exact ledger_of_running rfl (fun _ => logged_of_same same _)
      (fun process => by simp only [idle process]; trivial)

/-- Every step keeps the ledger, and commits come between operations. -/
theorem Ledger.step (ledger : Ledger store system) (protocol : Protocol system) {quota : Nat}
    {label : Label ι} (taken : step layout quota system label = some after) :
    ∃ events : List (Event ι Nat Block), after.history = system.history ++ events ∧
      Justified CommitDue system.history events ∧ Ledger (replay store events) after := by
  cases label with
  | call process =>
    obtain ⟨up, place, rfl⟩ := step_call taken
    exact ⟨[], (List.append_nil _).symm, trivial, ledger.moveTo (boot_of_up up) process rfl⟩
  | logWrite process blockno block =>
    obtain ⟨up, written, place, _, _, rfl⟩ := step_logWrite taken
    unfold System.logWrite
    split
    · exact ⟨[], (List.append_nil _).symm, trivial, ledger.of_same rfl rfl rfl rfl⟩
    · exact ⟨[], (List.append_nil _).symm, trivial, ledger.moveTo (boot_of_up up) process rfl⟩
  | endOp process =>
    obtain ⟨up, written, place, rfl⟩ := step_endOp taken
    refine ⟨[.ended process], ?_, ⟨trivial, trivial⟩, ledger.endOp protocol (boot_of_up up) place⟩
    simp only [System.endOp, protocol.open_of_operation place rfl, Bool.false_eq_true, ↓reduceIte]
    split <;> rfl
  | next process =>
    obtain ⟨up, taken⟩ := step_next taken
    exact ledger.next protocol (boot_of_up up) taken
  | kill process =>
    obtain ⟨up, rfl⟩ := step_kill taken
    have entered := ledger.entered (boot_of_up up)
    exact ⟨[], (List.append_nil _).symm, trivial,
      ledger_of_running (boot_of_up up) (ledger.logged (boot_of_up up))
        (all_moveTo _ (entered process).wakeup entered)⟩
  | recover =>
    obtain ⟨_, recovers⟩ := step_recover taken
    refine ⟨[], ?_, trivial, ledger.recovers recovers⟩
    cases recovers with
    | reads _ now | installs _ _ _ _ now | installed _ _ _ now | clears _ now =>
      rw [now]
      exact (List.append_nil _).symm
  | bread address =>
    obtain rfl := Option.some.inj taken
    exact ⟨[], (List.append_nil _).symm, trivial, ledger.of_same rfl rfl rfl rfl⟩
  | recycle address =>
    obtain ⟨_, rfl⟩ := step_recycle taken
    exact ⟨[], (List.append_nil _).symm, trivial, ledger.of_same rfl rfl rfl rfl⟩
  | crash =>
    obtain rfl := Option.some.inj taken
    exact ⟨[.crashed], rfl, ⟨trivial, trivial⟩, ledger_switchOn ..⟩

end Ledger

section Runs

variable {layout : Layout} {quota : Nat} {disk : Nat → Block} {schedule : List (Label ι)}
  {final : System ι}

/-- What every run keeps, whatever is on the disk and however much is logged. -/
theorem run_ledger
    (ran : exec (step layout quota) (System.switchOn disk []) schedule = some final) :
    Protocol final ∧ Ledger (replay ⟨disk, disk⟩ final.history) final ∧
      Justified CommitDue [] final.history := by
  refine exec_invariant (step layout quota) (System.switchOn disk []) (fun _ system =>
    Protocol system ∧ Ledger (replay ⟨disk, disk⟩ system.history) system ∧
      Justified CommitDue [] system.history)
    ⟨protocol_switchOn disk (fun _ => rfl), ledger_switchOn .., trivial⟩ ?_ schedule final ran
  rintro _ system label next ⟨protocol, ledger, due⟩ taken
  obtain ⟨events, history, dueAfter, ledgerAfter⟩ := ledger.step protocol taken
  refine ⟨protocol.step taken, ?_, ?_⟩
  · rw [history, replay_append]
    exact ledgerAfter
  · rw [history, justified_append, List.nil_append]
    exact ⟨due, dueAfter⟩

end Runs

end OsLabwork.Kernel.Logging
