import OsLabwork.Library.PrefixMatching
import OsLabwork.Library.Splitting
import OsLabwork.MapReduce.ReducePhase

/-!
# What the calls of a reducer obtain

For any reducer, the getter calls of a partition are the answers to its sequence
of requests, replayed from the first stored pair. The read position after some
requests is behind the longest prefix of the sorted keys that these requests
contain as a subsequence, whoever made them and for whatever reason.

A reducer call therefore sees the values of its own key from the first one on
exactly when the requests made before its first own one have used up the smaller
keys and nothing more.
-/

namespace OsLabwork.MapReduce

open KeyGroups PrefixMatching

variable {V σ : Type}

/-- The answers to a sequence of requests, and the read position after them. -/
def replay (pairs : List (KvPair V)) :
    Nat → List CString → List (CString × Option V) × Nat
  | position, [] => ([], position)
  | position, key :: rest =>
      let first := answer pairs position key
      let later := replay pairs first.2 rest
      ((key, first.1) :: later.1, later.2)

/-- The answers of a sequence of reducer calls are those to their requests, each call
going on where the one before it stopped. -/
def Chained (pairs : List (KvPair V)) : Nat → List (Invocation V) → Prop
  | _, [] => True
  | position, invocation :: rest =>
      invocation.calls = (replay pairs position invocation.requests).1 ∧
        Chained pairs (replay pairs position invocation.requests).2 rest

/-- What a reducer call was given when it asked for its own key. -/
def Invocation.ownAnswers (invocation : Invocation V) : List (Option V) :=
  (invocation.calls.filter (fun call => call.1 = invocation.key)).map Prod.snd

/-- Every reducer call obtains the values of its own key in order from the first,
and NULL only behind the last of them. -/
def SeesOwnValues (pairs : List (KvPair V)) (invocations : List (Invocation V)) : Prop :=
  ∀ invocation ∈ invocations, ∀ (turn : Nat) (given : Option V),
    invocation.ownAnswers[turn]? = some given →
    given = (valuesOf pairs invocation.key)[turn]?

/-- The requests so far have used up the keys below the given one, and not the first
pair of the key itself. -/
def Due (pairs : List (KvPair V)) (key : CString) (earlier : List CString) : Prop :=
  let smaller := (pairs.map KvPair.key).filter (fun other => strcmp other key < 0)
  smaller.Sublist earlier ∧ ¬ (smaller ++ [key]).Sublist earlier

/-- Each reducer call that asks for its own key does so when that key is due, counting
all requests made before in the partition. -/
def AsksInTurn (pairs : List (KvPair V)) (invocations : List (Invocation V)) : Prop :=
  ∀ before invocation after, invocations = before ++ invocation :: after →
    invocation.key ∈ invocation.requests →
    Due pairs invocation.key (before.flatMap Invocation.requests ++
      invocation.requests.takeWhile (fun key => key ≠ invocation.key))

/-- Requests one after the other. -/
theorem replay_append (pairs : List (KvPair V)) (position : Nat) (first later : List CString) :
    replay pairs position (first ++ later) =
      ((replay pairs position first).1 ++ (replay pairs (replay pairs position first).2 later).1,
        (replay pairs (replay pairs position first).2 later).2) := by
  induction first generalizing position with
  | nil => rfl
  | cons key rest inductionHypothesis => simp [replay, inductionHypothesis]

/-- Replayed answers carry the requests they answer. -/
theorem replay_requests (pairs : List (KvPair V)) (position : Nat) (requests : List CString) :
    (replay pairs position requests).1.map Prod.fst = requests := by
  induction requests generalizing position with
  | nil => rfl
  | cons key rest inductionHypothesis => simp [replay, inductionHypothesis]

/-- The read position advances by what the requests match of the remaining keys. -/
theorem replay_position (pairs : List (KvPair V)) (position : Nat) (requests : List CString) :
    (replay pairs position requests).2 =
      position + matched ((pairs.map KvPair.key).drop position) requests := by
  induction requests generalizing position with
  | nil => simp [replay]
  | cons key rest inductionHypothesis =>
    simp only [replay, inductionHypothesis]
    by_cases ended : pairs.length ≤ position
    · simp [answer, List.drop_eq_nil_of_le, ended]
    · have used : position < pairs.length := by omega
      have remaining : (pairs.map KvPair.key).drop position =
          pairs[position].key :: (pairs.map KvPair.key).drop (position + 1) := by
        rw [List.drop_eq_getElem_cons (by simpa using used)]
        simp
      by_cases own : pairs[position].key = key
      · simp only [answer, List.getElem?_eq_getElem used, own, ↓reduceIte, remaining, matched]
        omega
      · simp only [answer, List.getElem?_eq_getElem used, own, ↓reduceIte, remaining, matched]

/-- Any reducer's run is the replay of its own requests. -/
theorem runReducer_replays (reducer : Reducer σ V) (fuel : Nat) (user : σ)
    {list : ArrayList (KvPair V)} {pairs : List (KvPair V)}
    (represents : list.Represents pairs) :
    ∃ served, runReducer reducer fuel user list = some served ∧
      served.calls = (replay pairs list.iterPos (served.calls.map Prod.fst)).1 ∧
      served.list =
        list.moveTo (replay pairs list.iterPos (served.calls.map Prod.fst)).2 := by
  induction fuel generalizing user list with
  | zero => exact ⟨_, rfl, rfl, rfl⟩
  | succ fuel inductionHypothesis =>
    cases asked : reducer.request user with
    | none => exact ⟨⟨[], user, list, true⟩, by simp [runReducer, asked], rfl, rfl⟩
    | some key =>
      have answered := getNextValue_answer represents key
      obtain ⟨later, running, calls, moved⟩ := inductionHypothesis
        (reducer.receive (answer pairs list.iterPos key).1 user)
        (represents.moveTo (answer pairs list.iterPos key).2)
      refine ⟨{ later with calls := (key, (answer pairs list.iterPos key).1) :: later.calls },
        ?_, ?_, ?_⟩
      · simp [runReducer, asked, answered, running]
      · simp only [List.map_cons, replay]
        exact congrArg _ calls
      · simp only [List.map_cons, replay]
        exact moved

/-- The scan of a sequence of groups calls the reducer on the group keys in order,
each once, until some call does not return; all answers are replayed requests. -/
theorem reduceScan_traces (reducer : Reducer σ V) (partition fuel : Nat) (user : σ)
    {list : ArrayList (KvPair V)} (scanned : List (KvPair V))
    (groups : List (Group (KvPair.key : KvPair V → CString)))
    (represents : list.Represents (scanned ++ expand groups))
    (boundary : ∀ last, scanned.getLast? = some last → ∀ group, groups.head? = some group →
      last.key ≠ group.shared)
    (strict : (groups.map Group.shared).Pairwise (fun left right =>
      strcmp left right ≤ 0 ∧ left ≠ right)) :
    ∃ reduced remaining,
      reduceScan reducer partition fuel (List.range' scanned.length (expand groups).length)
        user list = some reduced ∧
      reduced.invocations.map Invocation.key ++ remaining = groups.map Group.shared ∧
      (reduced.returned = true → remaining = []) ∧
      Chained (scanned ++ expand groups) list.iterPos reduced.invocations := by
  induction groups generalizing scanned user list with
  | nil => exact ⟨⟨[], user, list, true⟩, [], by simp [reduceScan], rfl, fun _ => rfl, trivial⟩
  | cons group groups inductionHypothesis =>
    rw [expand_cons] at represents
    obtain ⟨served, serving, calls, moved⟩ := runReducer_replays reducer fuel
      (reducer.enter group.shared partition user) represents
    have kept : served.list.Represents (scanned ++ (group.items ++ expand groups)) := by
      rw [moved]
      exact represents.moveTo _
    have scan := reduceScan_group reducer partition fuel user
      (List.range' (scanned.length + group.items.length) (expand groups).length)
      scanned group (expand groups) represents
      (fun last isLast => boundary last isLast group rfl) served serving kept
    have indices : List.range' scanned.length (expand (group :: groups)).length =
        List.range' scanned.length group.items.length ++
          List.range' (scanned.length + group.items.length) (expand groups).length := by
      rw [expand_cons, List.length_append, List.range'_append_1]
    rw [indices, scan]
    obtain ⟨above, strictLater⟩ := List.pairwise_cons.mp strict
    cases finished : served.returned with
    | false =>
      refine ⟨⟨[⟨group.shared, served.calls⟩], served.user, served.list, false⟩,
        groups.map Group.shared, by simp, by simp, by simp, ?_⟩
      exact ⟨calls, trivial⟩
    | true =>
      have endsGroup : ∀ last, (scanned ++ group.items).getLast? = some last →
          ∀ next, groups.head? = some next → last.key ≠ next.shared := by
        intro last isLast next isNext
        have inGroup : last ∈ group.items := by
          rw [List.getLast?_append, List.getLast?_eq_some_getLast (by simp [Group.items])] at isLast
          simp only [Option.some_or, Option.some.injEq] at isLast
          exact isLast ▸ List.getLast_mem _
        rw [group.shared_of_mem inGroup]
        exact (above next.shared (List.mem_map_of_mem (List.mem_of_mem_head? isNext))).2
      obtain ⟨reduced, remaining, scanning, keys, complete, chained⟩ :=
        inductionHypothesis served.user (scanned ++ group.items)
          (by simpa using kept) endsGroup strictLater
      rw [List.length_append] at scanning
      refine ⟨{ reduced with invocations := ⟨group.shared, served.calls⟩ :: reduced.invocations },
        remaining, by simp [scanning], by simpa using keys, complete, calls, ?_⟩
      rw [moved, List.append_assoc] at chained
      exact chained

/-- Sorted pairs are the pairs below a key, those of the key, and those above it. -/
theorem sorted_split (pairs : List (KvPair V)) (key : CString)
    (sorted : pairs.Pairwise (fun left right => strcmp left.key right.key ≤ 0)) :
    pairs = pairs.filter (fun pair => strcmp pair.key key < 0) ++
      (pairs.filter (fun pair => pair.key = key) ++
        pairs.filter (fun pair => strcmp key pair.key < 0)) := by
  induction pairs with
  | nil => rfl
  | cons pair rest inductionHypothesis =>
    obtain ⟨below, sortedRest⟩ := List.pairwise_cons.mp sorted
    have later := inductionHypothesis sortedRest
    have swapped := strcmp_swap pair.key key
    rcases Int.lt_trichotomy (strcmp pair.key key) 0 with less | equal | greater
    · have differ : pair.key ≠ key := fun same => by simp [same] at less
      have notAbove : ¬ strcmp key pair.key < 0 := by omega
      simpa [less, differ, notAbove] using later
    · have same : pair.key = key := (strcmp_eq_zero_iff _ _).mp equal
      -- Nothing behind an item of the key lies below the key.
      have noneBelow : rest.filter (fun other => strcmp other.key key < 0) = [] := by
        rw [List.filter_eq_nil_iff]
        intro other member
        have order := below other member
        have exchanged := strcmp_swap other.key key
        rw [same] at order
        simp only [decide_eq_true_eq]
        omega
      rw [noneBelow, List.nil_append] at later
      simpa [same, noneBelow] using later
    · have differ : pair.key ≠ key := fun same => by simp [same] at greater
      have above : strcmp key pair.key < 0 := by omega
      have allAbove : ∀ other ∈ rest, strcmp key other.key < 0 := by
        intro other member
        exact strcmp_lt_of_lt_of_le above (below other member)
      have noneBelow : rest.filter (fun other => strcmp other.key key < 0) = [] := by
        rw [List.filter_eq_nil_iff]
        intro other member
        have order := allAbove other member
        have exchanged := strcmp_swap other.key key
        simp only [decide_eq_true_eq]
        omega
      have noneEqual : rest.filter (fun other => other.key = key) = [] := by
        rw [List.filter_eq_nil_iff]
        intro other member
        have order := allAbove other member
        simp only [decide_eq_true_eq]
        rintro same
        simp [same] at order
      have notBelow : ¬ strcmp pair.key key < 0 := by omega
      rw [noneBelow, noneEqual, List.nil_append, List.nil_append] at later
      simp only [List.filter_cons, notBelow, differ, above, decide_false, decide_true,
        Bool.false_eq_true, ↓reduceIte, noneBelow, noneEqual, List.nil_append]
      rw [← later]

section OneKey

variable {low own high : List (KvPair V)} {key : CString}

/-- Inside the group of a key the getter hands out its next value; behind the group it
never answers that key again. -/
theorem answer_own (isOwn : ∀ pair ∈ own, pair.key = key) (isHigh : ∀ pair ∈ high, pair.key ≠ key)
    (offset : Nat) :
    (answer (low ++ (own ++ high)) (low.length + offset) key).1 =
      (own.map KvPair.value)[offset]? := by
  rw [answer, List.getElem?_append_right (Nat.le_add_right _ _), Nat.add_sub_cancel_left]
  by_cases inside : offset < own.length
  · rw [List.getElem?_append_left inside, List.getElem?_eq_getElem inside]
    simp [isOwn own[offset] (List.getElem_mem inside), inside]
  · rw [List.getElem?_append_right (by omega)]
    have absent : (own.map KvPair.value)[offset]? = none := by
      rw [List.getElem?_eq_none]
      simpa using inside
    rw [absent]
    cases found : high[offset - own.length]? with
    | none => rfl
    | some pair => simp [isHigh pair (List.mem_of_getElem? found)]

/-- Before the group of a key the getter answers that key with NULL. -/
theorem answer_low (isLow : ∀ pair ∈ low, pair.key ≠ key) (position : Nat)
    (before : position < low.length) :
    (answer (low ++ (own ++ high)) position key).1 = none := by
  rw [answer, List.getElem?_append_left before, List.getElem?_eq_getElem before]
  simp [isLow low[position] (List.getElem_mem before)]

/-- From inside or behind the group on, an own request uses up one of the remaining
values, and a foreign one none. It can only move the position when that is already
behind the group, where no values are left. -/
theorem answer_moves (low high : List (KvPair V)) (isOwn : ∀ pair ∈ own, pair.key = key)
    (offset : Nat) (request : CString) :
    ∃ next, (answer (low ++ (own ++ high)) (low.length + offset) request).2 = low.length + next ∧
      ∀ turn, (own.map KvPair.value)[next + turn]? =
        (own.map KvPair.value)[offset + if request = key then turn + 1 else turn]? := by
  by_cases inside : offset < own.length
  · have here : (low ++ (own ++ high))[low.length + offset]? = some own[offset] := by
      rw [List.getElem?_append_right (Nat.le_add_right _ _), Nat.add_sub_cancel_left,
        List.getElem?_append_left inside, List.getElem?_eq_getElem inside]
    have hereKey := isOwn own[offset] (List.getElem_mem inside)
    by_cases isKey : request = key
    · refine ⟨offset + 1, by simp [answer, here, hereKey, isKey, Nat.add_assoc], ?_⟩
      intro turn
      rw [if_pos isKey, Nat.add_assoc, Nat.add_comm 1]
    · refine ⟨offset, by simp [answer, here, hereKey, Ne.symm isKey], ?_⟩
      intro turn
      rw [if_neg isKey]
  · have usedUp : ∀ index, offset ≤ index → (own.map KvPair.value)[index]? = none := by
      intro index behind
      rw [List.getElem?_eq_none]
      rw [List.length_map]
      omega
    have near : ∃ next, offset ≤ next ∧
        (answer (low ++ (own ++ high)) (low.length + offset) request).2 = low.length + next := by
      rw [answer]
      cases (low ++ (own ++ high))[low.length + offset]? with
      | none => exact ⟨offset, Nat.le_refl _, rfl⟩
      | some pair =>
        by_cases same : pair.key = request
        · exact ⟨offset + 1, Nat.le_succ _, by simp [same, Nat.add_assoc]⟩
        · exact ⟨offset, Nat.le_refl _, by simp [same]⟩
    obtain ⟨next, further, position⟩ := near
    refine ⟨next, position, ?_⟩
    intro turn
    rw [usedUp _ (by omega), usedUp _ (by omega)]

/-- From inside or behind the group on, the own requests are answered with the
remaining values in order, and with NULL once these are used up. -/
theorem replay_own (isOwn : ∀ pair ∈ own, pair.key = key) (isHigh : ∀ pair ∈ high, pair.key ≠ key)
    (requests : List CString) (offset turn : Nat) (given : Option V)
    (asked : (((replay (low ++ (own ++ high)) (low.length + offset) requests).1.filter
      (fun call => call.1 = key)).map Prod.snd)[turn]? = some given) :
    given = (own.map KvPair.value)[offset + turn]? := by
  induction requests generalizing offset turn with
  | nil => simp [replay] at asked
  | cons request rest inductionHypothesis =>
    obtain ⟨next, moved, left⟩ := answer_moves low high isOwn offset request
    by_cases isKey : request = key
    · subst isKey
      simp only [replay, decide_true, List.filter_cons_of_pos, List.map_cons, moved] at asked
      cases turn with
      | zero =>
        rw [List.getElem?_cons_zero, Option.some.injEq] at asked
        rw [← asked, answer_own isOwn isHigh offset, Nat.add_zero]
      | succ turn =>
        rw [List.getElem?_cons_succ] at asked
        rw [inductionHypothesis next turn asked, left, if_pos rfl]
    · simp only [replay, isKey, decide_false, Bool.false_eq_true, not_false_eq_true,
        List.filter_cons_of_neg, moved] at asked
      rw [inductionHypothesis next turn asked, left, if_neg isKey]

/-- Requests that begin with an own one are answered with all the values of the group
exactly when they begin at the group. With distinct values, a beginning elsewhere in the
group, or outside it, is answered wrongly at once. -/
theorem replay_own_iff (isLow : ∀ pair ∈ low, pair.key ≠ key) (isOwn : ∀ pair ∈ own, pair.key = key)
    (isHigh : ∀ pair ∈ high, pair.key ≠ key) (present : 0 < (own.map KvPair.value).length)
    (distinct : (own.map KvPair.value).Nodup) (start : Nat) (rest : List CString) :
    (∀ (turn : Nat) (given : Option V),
        (((replay (low ++ (own ++ high)) start (key :: rest)).1.filter
          (fun call => call.1 = key)).map Prod.snd)[turn]? = some given →
        given = (own.map KvPair.value)[turn]?) ↔
      start = low.length := by
  constructor
  · intro sees
    have firstGiven := sees 0 (answer (low ++ (own ++ high)) start key).1 (by simp [replay])
    rcases Nat.lt_or_ge start low.length with before | behind
    · rw [answer_low isLow start before, List.getElem?_eq_getElem present] at firstGiven
      simp at firstGiven
    · obtain ⟨offset, rfl⟩ := Nat.exists_eq_add_of_le behind
      rw [answer_own isOwn isHigh offset] at firstGiven
      have zero : 0 = offset := (List.getElem?_inj present distinct).mp firstGiven.symm
      omega
  · rintro rfl turn given asked
    simpa using replay_own isOwn isHigh (key :: rest) 0 turn given asked

end OneKey

/-- A reducer call of a chain answers from where the requests before it have brought
the read position. -/
theorem Chained.calls {pairs : List (KvPair V)} {position : Nat} (before : List (Invocation V))
    (invocation : Invocation V) (after : List (Invocation V))
    (chained : Chained pairs position (before ++ invocation :: after)) :
    invocation.calls = (replay pairs
      (replay pairs position (before.flatMap Invocation.requests)).2 invocation.requests).1 := by
  induction before generalizing position with
  | nil => exact chained.1
  | cons earlier before inductionHypothesis =>
    rw [List.flatMap_cons, replay_append]
    exact inductionHypothesis chained.2

/-- The read position is at the first pair of a stored key exactly when that key is
due after the requests so far. -/
theorem position_due_iff (pairs : List (KvPair V)) (key : CString)
    (sorted : pairs.Pairwise (fun left right => strcmp left.key right.key ≤ 0))
    (stored : ∃ pair ∈ pairs, pair.key = key) (earlier : List CString) :
    (replay pairs 0 earlier).2 =
        (pairs.filter (fun pair => strcmp pair.key key < 0)).length ↔
      Due pairs key earlier := by
  obtain ⟨witness, member, isKey⟩ := stored
  have inOwn : witness ∈ pairs.filter (fun pair => pair.key = key) := by simp [member, isKey]
  obtain ⟨first, more, ownShape⟩ := List.exists_cons_of_ne_nil (List.ne_nil_of_mem inOwn)
  have firstKey : first.key = key := by
    have firstOwn : first ∈ pairs.filter (fun pair => pair.key = key) := by simp [ownShape]
    simpa using (List.mem_filter.mp firstOwn).2
  have keys : pairs.map KvPair.key =
      (pairs.filter (fun pair => strcmp pair.key key < 0)).map KvPair.key ++
        key :: (more ++ pairs.filter (fun pair => strcmp key pair.key < 0)).map KvPair.key := by
    conv_lhs => rw [sorted_split pairs key sorted, ownShape]
    simp [firstKey]
  have smaller : (pairs.map KvPair.key).filter (fun other => strcmp other key < 0) =
      (pairs.filter (fun pair => strcmp pair.key key < 0)).map KvPair.key := by
    rw [List.filter_map]
    rfl
  have boundary := matched_eq_iff
    ((pairs.filter (fun pair => strcmp pair.key key < 0)).map KvPair.key) key
    ((more ++ pairs.filter (fun pair => strcmp key pair.key < 0)).map KvPair.key) earlier
  rw [← keys, List.length_map] at boundary
  rw [replay_position, Nat.zero_add, List.drop_zero, boundary, Due, smaller]

/-- The own answers of a call begin with its first own request; the requests before it
are foreign. -/
theorem ownAnswers_from_first (pairs : List (KvPair V)) (position : Nat)
    (invocation : Invocation V)
    (calls : invocation.calls = (replay pairs position invocation.requests).1)
    (asks : invocation.key ∈ invocation.requests) :
    ∃ rest, invocation.ownAnswers = ((replay pairs (replay pairs position
        (invocation.requests.takeWhile (fun key => key ≠ invocation.key))).2
          (invocation.key :: rest)).1.filter (fun call => call.1 = invocation.key)).map Prod.snd := by
  obtain ⟨first, rest, shape, isKey⟩ := Splitting.takeWhile_split
    (fun key => decide (key ≠ invocation.key)) invocation.requests ⟨_, asks, by simp⟩
  obtain rfl : first = invocation.key := by simpa using isKey
  refine ⟨rest, ?_⟩
  have foreign : (replay pairs position
      (invocation.requests.takeWhile (fun key => key ≠ invocation.key))).1.filter
        (fun call => decide (call.1 = invocation.key)) = [] := by
    rw [List.filter_eq_nil_iff]
    intro call member
    have request := List.mem_map_of_mem (f := Prod.fst) member
    rw [replay_requests] at request
    simpa using List.mem_takeWhile_imp request
  rw [Invocation.ownAnswers, calls]
  nth_rewrite 1 [shape]
  rw [replay_append, List.filter_append, foreign, List.nil_append]

/-- One reducer call sees its own values from the first one on exactly when its key
is due at its first own request. -/
theorem own_answers_iff (pairs : List (KvPair V)) (invocation : Invocation V)
    (sorted : pairs.Pairwise (fun left right => strcmp left.key right.key ≤ 0))
    (stored : ∃ pair ∈ pairs, pair.key = invocation.key)
    (distinct : (pairs.map KvPair.value).Nodup) (earlier : List CString)
    (calls : invocation.calls =
      (replay pairs (replay pairs 0 earlier).2 invocation.requests).1)
    (asks : invocation.key ∈ invocation.requests) :
    (∀ (turn : Nat) (given : Option V), invocation.ownAnswers[turn]? = some given →
        given = (valuesOf pairs invocation.key)[turn]?) ↔
      Due pairs invocation.key
        (earlier ++ invocation.requests.takeWhile (fun key => key ≠ invocation.key)) := by
  obtain ⟨rest, answers⟩ := ownAnswers_from_first pairs _ invocation calls asks
  have start : ∀ later, (replay pairs 0 (earlier ++ later)).2 =
      (replay pairs (replay pairs 0 earlier).2 later).2 := by
    intro later
    rw [replay_append]
  rw [answers, ← position_due_iff pairs invocation.key sorted stored, ← start]
  have isLow : ∀ pair ∈ pairs.filter (fun pair => strcmp pair.key invocation.key < 0),
      pair.key ≠ invocation.key := by
    rintro pair member same
    have less := (List.mem_filter.mp member).2
    simp [same] at less
  have isOwn : ∀ pair ∈ pairs.filter (fun pair => pair.key = invocation.key),
      pair.key = invocation.key := by
    intro pair member
    simpa using (List.mem_filter.mp member).2
  have isHigh : ∀ pair ∈ pairs.filter (fun pair => strcmp invocation.key pair.key < 0),
      pair.key ≠ invocation.key := by
    rintro pair member same
    have greater := (List.mem_filter.mp member).2
    simp [same] at greater
  have present : 0 < ((pairs.filter (fun pair => pair.key = invocation.key)).map
      KvPair.value).length := by
    obtain ⟨witness, member, isKey⟩ := stored
    rw [List.length_map]
    exact List.length_pos_of_mem (List.mem_filter.mpr ⟨member, by simpa using isKey⟩)
  have group := replay_own_iff isLow isOwn isHigh present
    (distinct.sublist (List.filter_sublist.map KvPair.value))
  rw [← sorted_split pairs invocation.key sorted] at group
  exact group _ rest

/-- Whatever reducer runs on a partition, each of its calls sees its own key's values
from the first one on exactly when each call that asks for its own key does so in
turn. The stored values are distinct pointers, since every emission is copied.

Proof: the scan calls the reducer on stored keys only and its answers are replayed
requests, so the law for a single call applies to each of them. -/
theorem reducer_sees_own_values_iff
    (qsort : (KvPair V → KvPair V → Int) → List (KvPair V) → List (KvPair V))
    (contract : Sorting.Contract qsort) (reducer : Reducer σ V) (partition fuel : Nat) (user : σ)
    (list : ArrayList (KvPair V)) (pairs : List (KvPair V)) (represents : list.Represents pairs)
    (unread : list.iterPos = 0) (distinct : (pairs.map KvPair.value).Nodup) :
    ∃ reduced, reduceThreadRunner qsort reducer partition fuel user list = some reduced ∧
      (SeesOwnValues (qsort comparePair pairs) reduced.invocations ↔
        AsksInTurn (qsort comparePair pairs) reduced.invocations) := by
  have permuted := contract.permutes comparePair pairs
  have sorted := contract.ordered comparePair comparePair_consistent pairs
  have sortedDistinct : ((qsort comparePair pairs).map KvPair.value).Nodup :=
    (permuted.map KvPair.value).nodup_iff.mpr distinct
  obtain ⟨sortedList, groups, expanded, strict, sortedRepresents, position, scan⟩ :=
    reduceThreadRunner_scan contract reducer partition fuel user represents
  obtain ⟨reduced, remaining, scanning, keys, _, chained⟩ := reduceScan_traces reducer partition fuel
    user [] groups sortedRepresents (by simp) strict
  rw [List.nil_append, expanded, position, unread] at chained
  refine ⟨reduced, ?_, ?_⟩
  · rw [scan]
    exact scanning
  · have stored : ∀ invocation ∈ reduced.invocations,
        ∃ pair ∈ qsort comparePair pairs, pair.key = invocation.key := by
      intro invocation member
      have listed : invocation.key ∈ groups.map Group.shared := by
        rw [← keys]
        exact List.mem_append_left _ (List.mem_map_of_mem member)
      obtain ⟨group, present, shared⟩ := List.mem_map.mp listed
      refine ⟨group.first, ?_, shared⟩
      rw [← expanded]
      exact List.mem_flatMap.mpr ⟨group, present, List.mem_cons_self⟩
    constructor
    · intro sees before invocation after split asks
      have member : invocation ∈ reduced.invocations := by simp [split]
      rw [split] at chained
      exact (own_answers_iff _ invocation sorted (stored invocation member) sortedDistinct _
        (chained.calls before invocation after) asks).mp (sees invocation member)
    · intro inTurn invocation member turn given asked
      obtain ⟨before, after, split⟩ := List.append_of_mem member
      have asks : invocation.key ∈ invocation.requests := by
        have answered := List.mem_of_getElem? asked
        obtain ⟨call, inOwn, _⟩ := List.mem_map.mp answered
        obtain ⟨recorded, isKey⟩ := List.mem_filter.mp inOwn
        exact List.mem_map.mpr ⟨call, recorded, by simpa using isKey⟩
      have due := inTurn before invocation after split asks
      rw [split] at chained
      exact (own_answers_iff _ invocation sorted (stored invocation member) sortedDistinct _
        (chained.calls before invocation after) asks).mpr due turn given asked

/-- A reducer that takes the first value of its key and returns. -/
def takeFirst : Reducer (Option CString) V where
  enter key _ _ := some key
  request asking := asking
  receive _ _ := none

/-- Two values of one key and one of the next. -/
def twoAndOne : List (KvPair Nat) :=
  [⟨CString.leading (ascii "a"), 1⟩, ⟨CString.leading (ascii "a"), 2⟩,
    ⟨CString.leading (ascii "b"), 3⟩]

/-- The list that `twoAndOne` is pushed to. -/
def twoAndOneList : ArrayList (KvPair Nat) where
  array := twoAndOne.map some ++ List.replicate 5 none
  length := 3
  volume := 8
  iterPos := 0

/-- The list of the three pairs. -/
theorem twoAndOneList_represents : twoAndOneList.Represents twoAndOne where
  stored := rfl
  counted := rfl
  block := rfl
  fits := by decide
  doubled := ⟨0, rfl⟩

/-- Three pairs with two keys, of which the first value is taken. -/
theorem reducer_sees_own_values_iff_two_and_one :
    ∃ reduced, reduceThreadRunner Sorting.insertionQsort takeFirst 0 9 none twoAndOneList =
        some reduced ∧
      (SeesOwnValues (Sorting.insertionQsort comparePair twoAndOne) reduced.invocations ↔
        AsksInTurn (Sorting.insertionQsort comparePair twoAndOne) reduced.invocations) :=
  reducer_sees_own_values_iff Sorting.insertionQsort Sorting.insertionQsort_contract takeFirst 0 9
    none twoAndOneList twoAndOne twoAndOneList_represents rfl (by decide)

/-- A reducer that stops after the first value of "a" is told that "b" has no values. -/
theorem later_key_is_answered_null :
    ∃ reduced, reduceThreadRunner Sorting.insertionQsort takeFirst 0 9 none twoAndOneList =
        some reduced ∧ reduced.returned = true ∧
      ¬ SeesOwnValues (Sorting.insertionQsort comparePair twoAndOne) reduced.invocations := by
  refine ⟨_, rfl, rfl, ?_⟩
  intro sees
  have second := sees ⟨CString.leading (ascii "b"), [(CString.leading (ascii "b"), none)]⟩
    (List.mem_cons_of_mem _ (List.mem_cons_self)) 0 none rfl
  exact absurd second (by decide)

end OsLabwork.MapReduce
