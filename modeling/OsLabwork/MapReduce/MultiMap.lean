import OsLabwork.Library.CText
import OsLabwork.MapReduce.ArrayList

/-!
# The partitioned multimap

`multi_map` keeps one growing list of key-value pairs for each partition. An item
goes to the list its key hashes to; a hash outside the table addresses no list.
The values are only stored and handed back, so their type is left open.

Putting items one after the other leaves in each list, in order, the items whose
keys hash to it.
-/

namespace OsLabwork.MapReduce

universe u
variable {V : Type u}

/-- `kv_pair`. -/
structure KvPair (V : Type u) where
  key : CString
  value : V
deriving DecidableEq

/-- `multi_map`: the lists, their number and the partitioner. -/
structure MultiMap (V : Type u) where
  lists : List (ArrayList (KvPair V))
  tableSize : Nat
  hashFunc : CString → Nat → Nat

/-- `MR_DefaultHashPartition`: the hash is an `unsigned long`, and each character is
widened from the signed `char` type before it is added. -/
def mrDefaultHashPartition (key : CString) (numPartitions : Nat) : Nat :=
  (key.bytes.foldl (fun hash byte => (hash * 33 + charValue byte) % 2 ^ 64) 5381).toNat %
    numPartitions

/-- The default partition is in range. -/
theorem mrDefaultHashPartition_lt (key : CString) (numPartitions : Nat)
    (positive : 1 ≤ numPartitions) : mrDefaultHashPartition key numPartitions < numPartitions :=
  Nat.mod_lt _ positive

namespace MultiMap

/-- `init_map`. -/
def initMap (hashFunc : CString → Nat → Nat) (tableSize : Nat) : MultiMap V where
  lists := List.replicate tableSize ArrayList.initList
  tableSize := tableSize
  hashFunc := hashFunc

/-- The list index of a key. -/
def hash (map : MultiMap V) (key : CString) : Nat := map.hashFunc key map.tableSize

/-- Change the list at an index; there is no result when no such list exists. -/
def updateList (map : MultiMap V) (index : Nat)
    (change : ArrayList (KvPair V) → Option (ArrayList (KvPair V))) : Option (MultiMap V) :=
  map.lists[index]?.bind fun list => (change list).map fun changed =>
    { map with lists := map.lists.set index changed }

/-- `put_item`. -/
def putItem (map : MultiMap V) (pair : KvPair V) : Option (MultiMap V) :=
  map.updateList (map.hash pair.key) (·.pushItem pair)

/-- Put items one after the other. -/
def putAll (map : MultiMap V) (pairs : List (KvPair V)) : Option (MultiMap V) :=
  pairs.foldlM putItem map

/-- The list at an index after it has been changed. -/
theorem updateList_eq_some_iff (map next : MultiMap V) (index : Nat)
    (change : ArrayList (KvPair V) → Option (ArrayList (KvPair V))) :
    map.updateList index change = some next ↔
      ∃ list changed, map.lists[index]? = some list ∧ change list = some changed ∧
        next = { map with lists := map.lists.set index changed } := by
  simp only [updateList, Option.bind_eq_some_iff, Option.map_eq_some_iff]
  constructor
  · rintro ⟨list, found, changed, result, rfl⟩
    exact ⟨list, changed, found, result, rfl⟩
  · rintro ⟨list, changed, found, result, rfl⟩
    exact ⟨list, found, changed, result, rfl⟩

/-- Two changes of one list in succession are one composed change. -/
theorem updateList_updateList {map middle : MultiMap V} {index : Nat}
    {first second : ArrayList (KvPair V) → Option (ArrayList (KvPair V))}
    (updated : map.updateList index first = some middle) :
    middle.updateList index second =
      map.updateList index (fun list => (first list).bind second) := by
  obtain ⟨list, changed, found, changing, rfl⟩ :=
    (updateList_eq_some_iff map middle index first).mp updated
  have inside : index < map.lists.length := (List.getElem?_eq_some_iff.mp found).1
  simp only [updateList, List.getElem?_set_self inside, found, Option.bind_some, changing,
    List.set_set]

/-- `put_item` in the pieces in which a thread does it: make room, store, count. -/
theorem putItem_pieces (map : MultiMap V) (pair : KvPair V) :
    map.putItem pair = map.updateList (map.hash pair.key) (fun list =>
      ((list.ensureVolume (list.length + 1)).bind (·.storeItem pair)).bind
        (fun stored => some stored.countItem)) := by
  have pieces : (fun list : ArrayList (KvPair V) => list.pushItem pair) = fun list =>
      ((list.ensureVolume (list.length + 1)).bind (·.storeItem pair)).bind
        (fun stored => some stored.countItem) := by
    funext list
    simp [ArrayList.pushItem, Option.bind_assoc]
  rw [putItem, pieces]

/-- Every list of the table holds, in order, the items whose keys hash to it. -/
structure Represents (map : MultiMap V) (hashFunc : CString → Nat → Nat) (tableSize : Nat)
    (pairs : List (KvPair V)) : Prop where
  hashed : map.hashFunc = hashFunc
  sized : map.tableSize = tableSize
  full : map.lists.length = tableSize
  stored : ∀ (index : Nat) (list : ArrayList (KvPair V)), map.lists[index]? = some list →
    list.Represents (pairs.filter (fun pair => hashFunc pair.key tableSize = index))
  unread : ∀ list ∈ map.lists, list.iterPos = 0

/-- A new map is empty. -/
theorem initMap_represents (hashFunc : CString → Nat → Nat) (tableSize : Nat) :
    Represents (initMap hashFunc tableSize : MultiMap V) hashFunc tableSize [] where
  hashed := rfl
  sized := rfl
  full := by simp [initMap]
  stored index list found := by
    have fresh : list = ArrayList.initList :=
      (List.mem_replicate.mp (List.mem_of_getElem? found)).2
    rw [fresh]
    exact ArrayList.initList_represents
  unread list member := by
    rw [(List.mem_replicate.mp member).2]
    rfl

/-- A successful put extends exactly the list its key hashes to. -/
theorem Represents.putItem {map next : MultiMap V} {hashFunc : CString → Nat → Nat}
    {tableSize : Nat} {pairs : List (KvPair V)}
    (represents : Represents map hashFunc tableSize pairs) (pair : KvPair V)
    (put : map.putItem pair = some next) :
    Represents next hashFunc tableSize (pairs ++ [pair]) ∧ hashFunc pair.key tableSize < tableSize := by
  obtain ⟨list, pushed, found, pushing, rfl⟩ := (updateList_eq_some_iff map next _ _).mp put
  have index : map.hash pair.key = hashFunc pair.key tableSize := by
    rw [hash, represents.hashed, represents.sized]
  rw [index] at found
  have inside : hashFunc pair.key tableSize < map.lists.length :=
    (List.getElem?_eq_some_iff.mp found).1
  obtain ⟨result, pushingToo, grown, position⟩ :=
    (represents.stored _ list found).pushItem pair
  obtain rfl : pushed = result := Option.some.inj (pushing.symm.trans pushingToo)
  refine ⟨?_, represents.full ▸ inside⟩
  refine ⟨represents.hashed, represents.sized, by simpa using represents.full, ?_, ?_⟩
  · intro other stored foundOther
    rw [index] at foundOther
    by_cases same : hashFunc pair.key tableSize = other
    · subst same
      rw [List.getElem?_set_self inside] at foundOther
      obtain rfl := Option.some.inj foundOther
      simpa [List.filter_append] using grown
    · rw [List.getElem?_set_ne same] at foundOther
      simpa [List.filter_append, same] using represents.stored other stored foundOther
  · intro other member
    rcases List.mem_or_eq_of_mem_set member with old | rfl
    · exact represents.unread other old
    · exact position.trans (represents.unread list (List.mem_of_getElem? found))

/-- Puts that all succeed leave every list with its own items, in order. -/
theorem Represents.putAll {map final : MultiMap V} {hashFunc : CString → Nat → Nat}
    {tableSize : Nat} {earlier : List (KvPair V)}
    (represents : Represents map hashFunc tableSize earlier) (pairs : List (KvPair V))
    (put : map.putAll pairs = some final) :
    Represents final hashFunc tableSize (earlier ++ pairs) := by
  induction pairs generalizing map earlier with
  | nil =>
    obtain rfl : map = final := Option.some.inj put
    simpa using represents
  | cons pair rest inductionHypothesis =>
    obtain ⟨next, first, later⟩ := Option.bind_eq_some_iff.mp put
    have grown := (represents.putItem pair first).1
    simpa using inductionHypothesis grown later

end MultiMap

end OsLabwork.MapReduce
