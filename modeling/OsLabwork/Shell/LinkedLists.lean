import Mathlib.Algebra.Order.Ring.Nat
import Mathlib.Data.List.Nodup
import OsLabwork.Library.LinkedNodes
import OsLabwork.Shell.Parsing

/-!
# The linked lists of the shell

`link_add` fills in the value of a node it has allocated, but the link of the first node
of a list is never stored to: it is what the memory held. Every later node takes over the
link of the node before it, so that this content ends up behind the last node, whatever
it is. All loops over lists stop only at NULL.

Elsewhere in this development the lists are sequences. Parsing with linked lists gives
the same command as parsing with sequences when the first node happens to hold NULL.
-/

namespace OsLabwork.Shell

open LinkedNodes

universe u v
variable {A : Type u} {V : Type v} [DecidableEq A]

/-- `link_t`; the length is an `unsigned int`. -/
structure Link (A : Type u) where
  head : Option A
  tail : Option A
  length : Nat
deriving DecidableEq, Repr

/-- `link_init`. -/
def linkInit : Link A := ⟨none, none, 0⟩

/-- `link_add`, with the address of the node that `malloc` returns. There is no result
when the tail of a list with a head is NULL. -/
def linkAdd (newNode : A) (value : V) (heap : A → Node A V) (link : Link A) :
    Option ((A → Node A V) × Link A) :=
  let filled := Function.update heap newNode { heap newNode with value := value }
  let length := (link.length + 1) % 2 ^ 32
  match link.head with
  | none => some (filled, ⟨some newNode, some newNode, length⟩)
  | some head => link.tail.map fun tail =>
      let joined := Function.update filled newNode
        { filled newNode with next := (filled tail).next }
      (Function.update joined tail { joined tail with next := some newNode },
        ⟨some head, some newNode, length⟩)

/-- Add values one after the other, each with the address of its node. -/
def linkAddAll : List (A × V) → (A → Node A V) → Link A → Option ((A → Node A V) × Link A)
  | [], heap, link => some (heap, link)
  | (newNode, value) :: rest, heap, link =>
      (linkAdd newNode value heap link).bind fun next => linkAddAll rest next.1 next.2

/-- `link_clear`: the nodes it frees, and the list afterwards. -/
def linkClear (heap : A → Node A V) (fuel : Nat) (link : Link A) : Option (List A × Link A) :=
  (walk heap fuel link.head).map fun freed => (freed, linkInit)

/-- `path_clear`: the nodes whose values it frees, then what `link_clear` does. -/
def pathClear (heap : A → Node A V) (fuel : Nat) (link : Link A) :
    Option (List A × List A × Link A) :=
  (walk heap fuel link.head).bind fun visited => (linkClear heap fuel link).map (visited, ·)

/-- The loop of `parse_cmd` over the list: the index and the value of each store to
`argv`. -/
def argvLoop (heap : A → Node A V) : Nat → Option A → Nat → Option (List (Nat × V))
  | _, none, _ => some []
  | 0, some _, _ => none
  | fuel + 1, some node, i =>
      (argvLoop heap fuel (heap node).next ((i + 1) % 2 ^ 32)).map ((i, (heap node).value) :: ·)

omit [DecidableEq A] in
/-- The stores to `argv` are the values of the visited nodes, at ascending indices. -/
theorem argvLoop_walk (heap : A → Node A V) (fuel : Nat) (start : Option A) (i : Nat) :
    argvLoop heap fuel start (i % 2 ^ 32) = (walk heap fuel start).map fun nodes =>
      (nodes.zipIdx i).map fun entry => (entry.2 % 2 ^ 32, (heap entry.1).value) := by
  induction fuel generalizing start i with
  | zero => cases start <;> rfl
  | succ fuel inductionHypothesis =>
    cases start with
    | none => rfl
    | some node =>
      have next : (i % 2 ^ 32 + 1) % 2 ^ 32 = (i + 1) % 2 ^ 32 := by omega
      rw [argvLoop, walk, next, inductionHypothesis, Option.map_map, Option.map_map]
      rfl

/-- A list after some additions to memory that was arbitrary before. The link of the first
node is what that memory held there, and it has been passed on to the last node. -/
structure Built (memory heap : A → Node A V) (link : Link A) (adds : List (A × V)) : Prop where
  leads : ∀ first, adds.head? = some first →
    Leads heap link.head (adds.map Prod.fst) (memory first.1).next
  empty : adds = [] → link.head = none
  carried : ∀ added ∈ adds, (heap added.1).value = added.2
  ends : link.tail = (adds.map Prod.fst).getLast?
  counted : link.length = adds.length % 2 ^ 32
  untouched : ∀ node, node ∉ adds.map Prod.fst → heap node = memory node

omit [DecidableEq A] in
/-- Nothing has been added. -/
theorem built_initially (memory : A → Node A V) : Built memory memory linkInit [] where
  leads _ isFirst := by simp at isFirst
  empty _ := rfl
  carried _ member := by simp at member
  ends := rfl
  counted := rfl
  untouched _ _ := rfl

/-- Adding a value to an empty list stores to the value of the node only. -/
theorem Built.linkAdd_first {memory heap : A → Node A V} {link : Link A}
    (built : Built memory heap link []) (newNode : A) (value : V) :
    ∃ after grown, linkAdd newNode value heap link = some (after, grown) ∧
      Built memory after grown [(newNode, value)] := by
  have same : heap newNode = memory newNode := built.untouched newNode (by simp)
  refine ⟨Function.update heap newNode { heap newNode with value := value },
    ⟨some newNode, some newNode, (link.length + 1) % 2 ^ 32⟩, ?_, ?_⟩
  · simp only [linkAdd, built.empty rfl]
  · constructor
    · intro first isFirst
      obtain rfl : (newNode, value) = first := by simpa using isFirst
      exact ⟨rfl, by simp [Leads, same]⟩
    · simp
    · simp
    · rfl
    · simp [built.counted]
    · intro node other
      rw [List.map_singleton, List.mem_singleton] at other
      simp only [Function.update_of_ne other]
      exact built.untouched node (by simp)

/-- The memory after a node has been hung behind the last one. -/
theorem linkAdd_stores (heap : A → Node A V) {link : Link A} {head tail newNode : A}
    (isHead : link.head = some head) (isTail : link.tail = some tail) (different : newNode ≠ tail)
    (value : V) :
    ∃ after, linkAdd newNode value heap link =
        some (after, ⟨some head, some newNode, (link.length + 1) % 2 ^ 32⟩) ∧
      after newNode = ⟨value, (heap tail).next⟩ ∧ (after tail).next = some newNode ∧
      (∀ node, node ≠ newNode → (after node).value = (heap node).value) ∧
      ∀ node, node ≠ newNode → node ≠ tail → after node = heap node := by
  simp only [linkAdd, isHead, isTail, Option.map_some]
  refine ⟨_, rfl, ?_, ?_, ?_, ?_⟩
  · simp [Function.update_of_ne different, Function.update_of_ne different.symm]
  · simp
  · intro node notNew
    by_cases isLast : node = tail
    · simp [isLast, Function.update_of_ne different.symm]
    · simp [Function.update_of_ne notNew, Function.update_of_ne isLast]
  · intro node notNew notTail
    simp [Function.update_of_ne notNew, Function.update_of_ne notTail]

/-- Adding a value to a list with nodes hangs the new node behind the last one, with the
link that one had. -/
theorem Built.linkAdd_later {memory heap : A → Node A V} {link : Link A} {front : List (A × V)}
    {last : A × V} (built : Built memory heap link (front ++ [last])) (newNode : A) (value : V)
    (distinct : ((front ++ [last] ++ [(newNode, value)]).map Prod.fst).Nodup) :
    ∃ after grown, linkAdd newNode value heap link = some (after, grown) ∧
      Built memory after grown (front ++ [last] ++ [(newNode, value)]) := by
  simp only [List.map_append, List.map_cons, List.map_nil] at distinct
  have fresh : newNode ∉ front.map Prod.fst ++ [last.1] := by
    have apart := List.nodup_append.mp distinct
    exact fun member => apart.2.2 newNode member newNode (by simp) rfl
  have frontDistinct : last.1 ∉ front.map Prod.fst := by
    have apart := List.nodup_append.mp (List.nodup_append.mp distinct).1
    exact fun member => apart.2.2 last.1 member last.1 (by simp) rfl
  rw [List.mem_append, List.mem_singleton, not_or] at fresh
  obtain ⟨first, isFirst⟩ : ∃ first, (front ++ [last]).head? = some first := by
    cases front <;> simp
  have leads := built.leads first isFirst
  have isHead : link.head = some first.1 := leads.start_eq (by rw [List.head?_map, isFirst]; rfl)
  have isTail : link.tail = some last.1 := by simpa using built.ends
  obtain ⟨after, adding, ofNew, ofTail, values, ofOthers⟩ :=
    linkAdd_stores heap isHead isTail fresh.2 value
  refine ⟨after, _, adding, ?_⟩
  constructor
  · intro another isAnother
    obtain rfl : first = another := by
      rw [List.head?_append, isFirst] at isAnother
      simpa using isAnother
    rw [isHead, List.map_append, List.map_singleton] at leads
    rw [List.map_append, List.map_append, List.map_singleton, List.map_singleton]
    refine leads.hang ?_ ofTail (by rw [ofNew])
    intro node member
    rw [ofOthers node (fun same => fresh.1 (same ▸ member))
      (fun same => frontDistinct (same ▸ member))]
  · simp
  · intro added member
    rw [List.mem_append, List.mem_singleton] at member
    rcases member with earlier | rfl
    · have notNew : added.1 ≠ newNode := by
        intro same
        rcases List.mem_append.mp earlier with inFront | atEnd
        · exact fresh.1 (same ▸ List.mem_map_of_mem inFront)
        · exact fresh.2 (same ▸ congrArg Prod.fst (List.mem_singleton.mp atEnd))
      rw [values added.1 notNew]
      exact built.carried added earlier
    · rw [ofNew]
  · simp
  · rw [built.counted]
    simp only [List.length_append, List.length_cons, List.length_nil]
    omega
  · intro node other
    simp only [List.map_append, List.map_cons, List.map_nil, List.mem_append, List.mem_singleton,
      not_or] at other
    rw [ofOthers node other.2 other.1.2]
    exact built.untouched node (by simpa using other.1)

/-- Every addition of a node that is not in the list yet keeps the list built. -/
theorem Built.linkAdd {memory heap : A → Node A V} {link : Link A} {adds : List (A × V)}
    (built : Built memory heap link adds) (newNode : A) (value : V)
    (distinct : ((adds ++ [(newNode, value)]).map Prod.fst).Nodup) :
    ∃ after grown, Shell.linkAdd newNode value heap link = some (after, grown) ∧
      Built memory after grown (adds ++ [(newNode, value)]) := by
  rcases List.eq_nil_or_concat adds with rfl | ⟨front, last, rfl⟩
  · exact built.linkAdd_first newNode value
  · rw [List.concat_eq_append] at built distinct ⊢
    exact built.linkAdd_later newNode value distinct

/-- Nodes are added one after the other. -/
theorem Built.linkAddAll {memory heap : A → Node A V} {link : Link A} {earlier : List (A × V)}
    (built : Built memory heap link earlier) (adds : List (A × V))
    (distinct : ((earlier ++ adds).map Prod.fst).Nodup) :
    ∃ after grown, Shell.linkAddAll adds heap link = some (after, grown) ∧
      Built memory after grown (earlier ++ adds) := by
  induction adds generalizing heap link earlier with
  | nil => exact ⟨heap, link, rfl, by simpa using built⟩
  | cons added rest inductionHypothesis =>
    have regroup : earlier ++ added :: rest = earlier ++ [added] ++ rest := by simp
    rw [regroup] at distinct ⊢
    have distinctSoFar : ((earlier ++ [added]).map Prod.fst).Nodup := by
      rw [List.map_append] at distinct
      exact (List.nodup_append.mp distinct).1
    obtain ⟨next, longer, adding, builtNext⟩ := built.linkAdd added.1 added.2 distinctSoFar
    obtain ⟨after, grown, addingRest, builtAll⟩ := inductionHypothesis builtNext distinct
    refine ⟨after, grown, ?_, builtAll⟩
    rw [Shell.linkAddAll, adding, Option.bind_some, addingRest]

omit [DecidableEq A] in
/-- When the memory of the first node held NULL, the links lead to NULL. -/
theorem Built.visits {memory heap : A → Node A V} {link : Link A} {adds : List (A × V)}
    (built : Built memory heap link adds)
    (zero : ∀ first, adds.head? = some first → (memory first.1).next = none) :
    Leads heap link.head (adds.map Prod.fst) none := by
  cases adds with
  | nil => exact built.empty rfl
  | cons first rest =>
    rw [← zero first rfl]
    exact built.leads first rfl

omit [DecidableEq A] in
/-- The nodes have the values that were added. -/
theorem Built.values {memory heap : A → Node A V} {link : Link A} {adds : List (A × V)}
    (built : Built memory heap link adds) :
    (adds.map Prod.fst).map (fun node => (heap node).value) = adds.map Prod.snd := by
  rw [List.map_map]
  exact List.map_congr_left built.carried

/-- A list as its users rely on it: the links lead through one node for each value and
then to NULL, the tail is the last node, and the length is their number; the stores to
`argv` are the values at the indices below the length, and clearing visits the nodes. -/
structure Serves (heap : A → Node A V) (link : Link A) (nodes : List A) (values : List V) :
    Prop where
  visits : Leads heap link.head nodes none
  carried : nodes.map (fun node => (heap node).value) = values
  ends : link.tail = nodes.getLast?
  counted : link.length = values.length
  argv : ∃ fuel, argvLoop heap fuel link.head 0 = some ((List.range link.length).zip values)
  cleared : ∃ fuel, linkClear heap fuel link = some (nodes, linkInit)
  pathCleared : ∃ fuel, pathClear heap fuel link = some (nodes, nodes, linkInit)

omit [DecidableEq A] in
/-- Along a chain that leads to NULL, the stores to `argv` are the values in order. -/
theorem argvLoop_stores {heap : A → Node A V} {start : Option A} {nodes : List A}
    (visits : Leads heap start nodes none) (small : nodes.length < 2 ^ 32) (fuel : Nat)
    (enough : nodes.length ≤ fuel) :
    argvLoop heap fuel start 0 =
      some ((List.range nodes.length).zip (nodes.map fun node => (heap node).value)) := by
  have stores := argvLoop_walk heap fuel start 0
  rw [Nat.zero_mod, visits.walk fuel enough, Option.map_some] at stores
  rw [stores]
  congr 1
  apply List.ext_getElem
  · simp
  · intro index inside _
    have below : index < 2 ^ 32 := by
      simp only [List.length_map, List.length_zipIdx] at inside
      omega
    simpa using below

/-- Whatever the memory held and however many values are added, each in a node of its own,
the list serves its users exactly when there are fewer than 2 ^ 32 values and the memory
of the first node held NULL as its link. -/
theorem linked_list_serves_iff (memory : A → Node A V) (adds : List (A × V))
    (distinct : (adds.map Prod.fst).Nodup) :
    ∃ heap link, linkAddAll adds memory linkInit = some (heap, link) ∧
      ((∃ nodes, Serves heap link nodes (adds.map Prod.snd)) ↔
        adds.length < 2 ^ 32 ∧
          ∀ first, adds.head? = some first → (memory first.1).next = none) := by
  obtain ⟨heap, link, adding, built⟩ := (built_initially memory).linkAddAll adds distinct
  rw [List.nil_append] at built
  refine ⟨heap, link, adding, ?_⟩
  constructor
  · rintro ⟨nodes, serves⟩
    have counted := serves.counted
    rw [built.counted, List.length_map] at counted
    refine ⟨by omega, ?_⟩
    intro first isFirst
    have length : nodes.length = (adds.map Prod.fst).length := by
      have carried := congrArg List.length serves.carried
      simpa using carried
    exact (serves.visits.unique (built.leads first isFirst) length).2.symm
  · rintro ⟨small, zero⟩
    have visits := built.visits zero
    have walked := visits.walk (adds.map Prod.fst).length (Nat.le_refl _)
    have counted : link.length = (adds.map Prod.snd).length := by
      rw [built.counted, List.length_map, Nat.mod_eq_of_lt small]
    refine ⟨adds.map Prod.fst, visits, built.values, built.ends, counted,
      ⟨(adds.map Prod.fst).length, ?_⟩, ⟨(adds.map Prod.fst).length, ?_⟩,
      ⟨(adds.map Prod.fst).length, ?_⟩⟩
    · rw [argvLoop_stores visits (by simpa using small) _ (Nat.le_refl _), built.values, counted,
        List.length_map, List.length_map]
    · rw [linkClear, walked, Option.map_some]
    · rw [pathClear, linkClear, walked, Option.bind_some, Option.map_some, Option.map_some]

/-- Memory in which every node holds the same link. -/
def heldEverywhere (next : Option Nat) : Nat → Node Nat Nat := fun _ => ⟨0, next⟩

/-- Memory that held NULL everywhere. -/
theorem linked_list_serves_iff_zeroed :
    ∃ heap link, linkAddAll [(1, 10), (2, 20)] (heldEverywhere none) linkInit = some (heap, link) ∧
      ∃ nodes, Serves heap link nodes [10, 20] := by
  obtain ⟨heap, link, adding, serves_iff⟩ :=
    linked_list_serves_iff (heldEverywhere none) [(1, 10), (2, 20)] (by decide)
  exact ⟨heap, link, adding, serves_iff.mpr ⟨by decide, fun _ _ => rfl⟩⟩

/-- One value in a node whose memory held an address: the links do not end behind it. -/
theorem held_address_is_followed :
    ∃ heap link, linkAddAll [(1, 10)] (heldEverywhere (some 7)) linkInit = some (heap, link) ∧
      ¬ ∃ nodes, Serves heap link nodes [10] := by
  refine ⟨_, _, rfl, ?_⟩
  rintro ⟨nodes, serves⟩
  have length : nodes.length = 1 := by simpa using congrArg List.length serves.carried
  obtain ⟨node, rfl⟩ := List.length_eq_one_iff.mp length
  obtain ⟨isFirst, ends⟩ := serves.visits
  obtain rfl : 1 = node := Option.some.inj isFirst
  simp [Leads, heldEverywhere] at ends

/-- The cells of `argv`: what was stored last below the length, and the final NULL. -/
def argvCells (stores : List (Nat × V)) (length : Nat) : List (Option V) :=
  (List.range length).map (fun i => (stores.reverse.find? (fun store => store.1 = i)).map Prod.snd)
    ++ [none]

/-- The array is filled in order, with NULL at its end. -/
theorem argvCells_stores (values : List V) :
    argvCells ((List.range values.length).zip values) values.length = values.map some ++ [none] := by
  have stored : ∀ (index : Nat) (inside : index < values.length),
      ((List.range values.length).zip values).reverse.find? (fun store => store.1 = index) =
        some (index, values[index]) := by
    intro index inside
    have position : ∀ entry ∈ (List.range values.length).zip values,
        ∃ inRange : entry.1 < values.length, entry.2 = values[entry.1] := by
      intro entry member
      obtain ⟨at', inZip, rfl⟩ := List.mem_iff_getElem.mp member
      simp only [List.length_zip, List.length_range, Nat.min_self] at inZip
      exact ⟨by simpa using inZip, by simp⟩
    cases found : ((List.range values.length).zip values).reverse.find?
        (fun store => store.1 = index) with
    | none =>
      rw [List.find?_eq_none] at found
      have member : (index, values[index]) ∈ (List.range values.length).zip values :=
        List.mem_iff_getElem.mpr ⟨index, by simpa using inside, by simp⟩
      simpa using found _ (List.mem_reverse.mpr member)
    | some entry =>
      have isIndex : entry.1 = index := by simpa using List.find?_some found
      obtain ⟨_, value⟩ := position entry (List.mem_reverse.mp (List.mem_of_find?_eq_some found))
      subst isIndex
      rw [← value]
  rw [argvCells]
  congr 1
  apply List.ext_getElem
  · simp
  · intro index inside _
    rw [List.length_map, List.length_range] at inside
    simp [stored index inside]

/-- `parse_cmd` with its linked list. The successive calls of `malloc` return the given
addresses. -/
def parseCmdLinked (malloc : Nat → A) (heap : A → Node A Nat) (fuel : Nat) (memory : List UInt8)
    (cmdLine : Nat) : Option (List UInt8 × Option ParsedCmd) :=
  (tokenLoop fuel memory cmdLine).bind fun (next, tokens) =>
    (linkAddAll (tokens.zipIdx.map fun entry => (malloc entry.2, entry.1)) heap linkInit).bind
      fun (filled, argLink) =>
        if argLink.length > 0 then
          argLink.head.bind fun head => (argvLoop filled fuel argLink.head 0).map fun stores =>
            (next, some ⟨(filled head).value, argvCells stores argLink.length, argLink.length⟩)
        else some (next, none)

/-- The loop of `parse_cmd` finds at most as many tokens as it takes turns. -/
theorem tokenLoop_count (fuel : Nat) (memory next : List UInt8) (token : Nat) (tokens : List Nat)
    (looped : tokenLoop fuel memory token = some (next, tokens)) : tokens.length ≤ fuel := by
  induction fuel generalizing memory next token tokens with
  | zero => simp [tokenLoop] at looped
  | succ fuel inductionHypothesis =>
    rw [tokenLoop] at looped
    cases more : (CMemory.strsep blanks memory token).2 with
    | none =>
      simp only [more, Option.some.injEq, Prod.mk.injEq] at looped
      rw [← looped.2]
      split <;> simp
    | some rest =>
      simp only [more, Option.map_eq_some_iff, Prod.mk.injEq] at looped
      obtain ⟨later, loopedLater, _, rfl⟩ := looped
      have bound := inductionHypothesis _ _ _ _ loopedLater
      rw [List.length_append]
      split <;> simp <;> omega

/-- Where the memory of the first node held NULL, parsing with a linked list is parsing
with a sequence. -/
theorem parseCmdLinked_eq (malloc : Nat → A) (distinct : Function.Injective malloc)
    (heap : A → Node A Nat) (zero : (heap (malloc 0)).next = none) (fuel : Nat)
    (small : fuel < 2 ^ 32) (memory : List UInt8) (cmdLine : Nat) :
    parseCmdLinked malloc heap fuel memory cmdLine = parseCmd fuel memory cmdLine := by
  rw [parseCmdLinked, parseCmd]
  cases looped : tokenLoop fuel memory cmdLine with
  | none => rfl
  | some result =>
    obtain ⟨next, tokens⟩ := result
    have count := tokenLoop_count fuel memory next cmdLine tokens looped
    let adds := tokens.zipIdx.map fun entry => (malloc entry.2, entry.1)
    have nodes : adds.map Prod.fst = (List.range' 0 tokens.length).map malloc := by
      rw [← List.zipIdx_map_snd, List.map_map, List.map_map]
      rfl
    have values : adds.map Prod.snd = tokens := by
      rw [List.map_map]
      exact List.zipIdx_map_fst 0 tokens
    have length : adds.length = tokens.length := by rw [List.length_map, List.length_zipIdx]
    have apart : (adds.map Prod.fst).Nodup := by
      rw [nodes]
      exact List.Nodup.map distinct List.nodup_range'
    obtain ⟨filled, link, adding, built⟩ := (built_initially heap).linkAddAll adds apart
    rw [List.nil_append] at built
    have counted : link.length = tokens.length := by
      rw [built.counted, length, Nat.mod_eq_of_lt (by omega)]
    simp only [Option.bind_some, Option.map_some, adds, adding]
    cases tokens with
    | nil => simp [counted]
    | cons first others =>
      have visits := built.visits (by
        intro added isFirst
        obtain rfl : (malloc 0, first) = added := by simpa [adds] using isFirst
        exact zero)
      have stores := argvLoop_stores visits (by rw [List.length_map]; omega) fuel
        (by rw [List.length_map]; omega)
      have isHead : link.head = some (malloc 0) := visits.1
      have isFirst : (filled (malloc 0)).value = first :=
        built.carried (malloc 0, first) (by simp [adds])
      rw [built.values, values, List.length_map, length] at stores
      rw [if_pos (by simp [counted]), stores, isHead, Option.bind_some, Option.map_some, isFirst,
        counted, argvCells_stores]

end OsLabwork.Shell
