import Mathlib.Data.List.Basic
import Mathlib.Logic.Function.Basic

/-!
# Chains of linked nodes

Memory gives every address a node with a value and the address of the next node, or
none. It does so for addresses that no program has stored to as well: what stands there
is arbitrary.

A chain leads from an address through some nodes to where the last of them points. A
loop that follows the links visits the nodes of a chain that leads to none, and ends
there.
-/

namespace OsLabwork.LinkedNodes

universe u v
variable {A : Type u} {V : Type v}

/-- A node with a link. -/
structure Node (A : Type u) (V : Type v) where
  value : V
  next : Option A

/-- From the start, the links lead through these nodes to the stop. -/
def Leads (heap : A → Node A V) : Option A → List A → Option A → Prop
  | start, [], stop => start = stop
  | start, node :: rest, stop => start = some node ∧ Leads heap (heap node).next rest stop

/-- `while (node) node = node->next`, with the nodes it visits; there is no result when
the fuel does not suffice. -/
def walk (heap : A → Node A V) : Nat → Option A → Option (List A)
  | _, none => some []
  | 0, some _ => none
  | fuel + 1, some node => (walk heap fuel (heap node).next).map (node :: ·)

variable {heap : A → Node A V}

/-- One more node behind the others. -/
theorem leads_concat_iff (start stop : Option A) (nodes : List A) (last : A) :
    Leads heap start (nodes ++ [last]) stop ↔
      Leads heap start nodes (some last) ∧ (heap last).next = stop := by
  induction nodes generalizing start with
  | nil => rfl
  | cons node rest inductionHypothesis =>
    simp only [List.cons_append, Leads, inductionHypothesis, and_assoc]

/-- The links start at the first node. -/
theorem Leads.start_eq {start stop : Option A} {nodes : List A} {first : A}
    (leads : Leads heap start nodes stop) (isFirst : nodes.head? = some first) :
    start = some first := by
  cases nodes with
  | nil => simp at isFirst
  | cons node rest =>
    obtain rfl : node = first := by simpa using isFirst
    exact leads.1

/-- Only the links of the nodes on the way matter. -/
theorem Leads.congr {other : A → Node A V} {start stop : Option A} {nodes : List A}
    (leads : Leads heap start nodes stop)
    (same : ∀ node ∈ nodes, (other node).next = (heap node).next) :
    Leads other start nodes stop := by
  induction nodes generalizing start with
  | nil => exact leads
  | cons node rest inductionHypothesis =>
    obtain ⟨first, onward⟩ := leads
    refine ⟨first, ?_⟩
    rw [same node List.mem_cons_self]
    exact inductionHypothesis onward (fun later member => same later (List.mem_cons_of_mem _ member))

/-- A node that is hung behind the last one and takes over its link lengthens the way. -/
theorem Leads.hang {other : A → Node A V} {start stop : Option A} {front : List A} {tail node : A}
    (leads : Leads heap start (front ++ [tail]) stop)
    (kept : ∀ earlier ∈ front, (other earlier).next = (heap earlier).next)
    (hung : (other tail).next = some node) (passedOn : (other node).next = (heap tail).next) :
    Leads other start (front ++ [tail] ++ [node]) stop := by
  rw [leads_concat_iff] at leads
  rw [leads_concat_iff, leads_concat_iff]
  exact ⟨⟨leads.1.congr kept, hung⟩, passedOn.trans leads.2⟩

/-- From one start, so many links lead along one way only. -/
theorem Leads.unique {start stop other : Option A} {nodes others : List A}
    (leads : Leads heap start nodes stop) (leadsToo : Leads heap start others other)
    (length : nodes.length = others.length) : nodes = others ∧ stop = other := by
  induction nodes generalizing start others with
  | nil =>
    obtain rfl : others = [] := List.length_eq_zero_iff.mp length.symm
    exact ⟨rfl, Eq.trans (Eq.symm leads) leadsToo⟩
  | cons node rest inductionHypothesis =>
    cases others with
    | nil => simp at length
    | cons another more =>
      obtain ⟨rfl, onward⟩ := leads
      obtain ⟨same, onwardToo⟩ := leadsToo
      obtain rfl := Option.some.inj same
      obtain ⟨rfl, sameStop⟩ := inductionHypothesis onward onwardToo (by simpa using length)
      exact ⟨rfl, sameStop⟩

/-- The loop visits the nodes on the way to none. -/
theorem Leads.walk {start : Option A} {nodes : List A} (leads : Leads heap start nodes none)
    (fuel : Nat) (enough : nodes.length ≤ fuel) :
    LinkedNodes.walk heap fuel start = some nodes := by
  induction nodes generalizing start fuel with
  | nil =>
    obtain rfl : start = none := leads
    cases fuel <;> rfl
  | cons node rest inductionHypothesis =>
    obtain ⟨rfl, onward⟩ := leads
    obtain ⟨remaining, rfl⟩ : ∃ remaining, fuel = remaining + 1 :=
      ⟨fuel - 1, by simp at enough; omega⟩
    rw [LinkedNodes.walk, inductionHypothesis onward remaining (by simpa using enough),
      Option.map_some]

end OsLabwork.LinkedNodes
