import TrieSync.Proofs.Call
import TrieSync.Proofs.Write

namespace TrieSync

/-- Where a store holds bytes. -/
inductive Slot
  | node (key : Occurrence)
  | code (digest : Digest)
deriving DecidableEq

namespace Store

def found? (store : Store) : Slot → Option Bytes
  | .node key => store.nodes[key]?
  | .code digest => store.codes[digest]?

/-- Where a write puts its bytes. -/
def slot (store : Store) : Put → Slot
  | .node occurrence _ => .node (store.key occurrence)
  | .code digest _ => .code digest

/-- Two stores work alike and hold the same. -/
structure Alike (left right : Store) : Prop where
  keying_eq : left.keying = right.keying
  rejecting_eq : left.rejecting = right.rejecting
  found_eq : ∀ slot, left.found? slot = right.found? slot

end Store

def Put.bytes : Put → Bytes
  | node _ bytes => bytes
  | code _ bytes => bytes

namespace Store

variable {store left right : Store} {put : Put} {puts stale : List Put} {slot : Slot}

theorem found?_put (store : Store) (put : Put) (slot : Slot) :
    (store.put put).found? slot =
      if store.slot put = slot then some put.bytes else store.found? slot := by
  cases put <;> cases slot <;>
    simp [Store.put, Store.slot, found?, insertNode, insertCode, Put.bytes, Entries.getElem?_insert]

theorem slot_of_keying_eq (keying_eq : left.keying = right.keying) (put : Put) :
    left.slot put = right.slot put := by
  cases put with
  | code => rfl
  | node occurrence bytes => exact congrArg Slot.node (key_eq_of_keying_eq keying_eq occurrence)

@[simp] theorem rejecting_putAll (store : Store) (puts : List Put) :
    (store.putAll puts).rejecting = store.rejecting := by
  unfold putAll
  induction puts generalizing store with
  | nil => rfl
  | cons first rest ih => rw [List.foldl_cons, ih]; cases first <;> rfl

theorem found?_putAll_congr (keying_eq : left.keying = right.keying)
    (same : left.found? slot = right.found? slot ∨ ∃ put ∈ puts, left.slot put = slot) :
    (left.putAll puts).found? slot = (right.putAll puts).found? slot := by
  unfold putAll
  induction puts generalizing left right with
  | nil => simpa using same
  | cons first rest ih =>
      have first_slot := slot_of_keying_eq keying_eq first
      refine ih (by simpa using keying_eq) ?_
      simp only [found?_put, ← first_slot, slot_of_keying_eq (keying_put left first)]
      split
      · exact .inl rfl
      · rename_i elsewhere
        refine same.imp_right ?_
        rintro ⟨put, member, slot_eq⟩
        rcases List.mem_cons.mp member with rfl | member
        · exact absurd slot_eq elsewhere
        · exact ⟨put, member, slot_eq⟩

namespace Alike

theorem refl (store : Store) : store.Alike store :=
  ⟨rfl, rfl, fun _ => rfl⟩

theorem trans {other : Store} (h : left.Alike right) (h' : right.Alike other) : left.Alike other :=
  ⟨h.keying_eq.trans h'.keying_eq, h.rejecting_eq.trans h'.rejecting_eq,
    fun slot => (h.found_eq slot).trans (h'.found_eq slot)⟩

theorem hasNode_eq (h : left.Alike right) (occurrence : Occurrence) :
    left.hasNode occurrence = right.hasNode occurrence := by
  have found_eq := h.found_eq (.node (left.key occurrence))
  rw [hasNode_eq_isSome_node?, hasNode_eq_isSome_node?, node?, node?,
    ← key_eq_of_keying_eq h.keying_eq]
  exact congrArg Option.isSome found_eq

theorem hasCode_eq (h : left.Alike right) (digest : Digest) :
    left.hasCode digest = right.hasCode digest := by
  rw [hasCode_eq_isSome_code?, hasCode_eq_isSome_code?]
  exact congrArg Option.isSome (h.found_eq (.code digest))

theorem putAll (h : left.Alike right) (puts : List Put) :
    (left.putAll puts).Alike (right.putAll puts) where
  keying_eq := by simpa using h.keying_eq
  rejecting_eq := by simpa using h.rejecting_eq
  found_eq slot := found?_putAll_congr h.keying_eq (.inl (h.found_eq slot))

end Alike

/-- Writes that are all made again need not be made before. -/
theorem alike_putAll_append (store : Store) (again : ∀ put ∈ stale, put ∈ puts) :
    (store.putAll (stale ++ puts)).Alike (store.putAll puts) := by
  induction stale with
  | nil => exact .refl _
  | cons first rest ih =>
      refine .trans ?_ (ih fun put member => again put (List.mem_cons_of_mem _ member))
      refine ⟨by simp, by simp, fun slot => ?_⟩
      show ((store.put first).putAll (rest ++ puts)).found? slot = _
      refine found?_putAll_congr (keying_put store first) ?_
      rw [found?_put]
      split
      · rename_i first_slot
        refine .inr ⟨first, List.mem_append_right _ (again first List.mem_cons_self), ?_⟩
        rw [slot_of_keying_eq (keying_put store first), first_slot]
      · exact .inl rfl

end Store

namespace Scheduler

variable {H : Hash} {left right : Store}

theorem scheduleNode_congr (alike : left.Alike right) (scheduler : Scheduler) (place : Placement)
    (parent : Option RequestId) (occurrence : Occurrence) :
    scheduler.scheduleNode H left place parent occurrence =
      scheduler.scheduleNode H right place parent occurrence := by
  simp only [scheduleNode, obtainNode, alike.hasNode_eq]

theorem scheduleCode_congr (alike : left.Alike right) (scheduler : Scheduler)
    (parent : Option RequestId) (path : Path) (digest : Digest) :
    scheduler.scheduleCode left parent path digest =
      scheduler.scheduleCode right parent path digest := by
  simp only [scheduleCode, alike.hasCode_eq]

theorem resolve_congr (alike : left.Alike right) (scheduler : Scheduler) (place : Placement)
    (id : RequestId) (path : Path) (references : References) :
    scheduler.resolve H left place id path references =
      scheduler.resolve H right place id path references := by
  simp only [resolve, scheduleNode_congr alike, scheduleCode_congr alike]

theorem placeWithin_congr (alike : left.Alike right) (height : Nat) :
    placeWithin H left height = placeWithin H right height := by
  funext occurrence bytes parents scheduler
  induction height generalizing occurrence bytes parents scheduler with
  | zero => rfl
  | succ height ih =>
      have place_eq : placeWithin H left height = placeWithin H right height := by
        funext occurrence bytes parents scheduler
        exact ih occurrence bytes parents scheduler
      simp only [placeWithin, place_eq, resolve_congr alike]

theorem perform_congr (alike : left.Alike right) (scheduler : Scheduler) (call : Call) :
    scheduler.perform H left call = scheduler.perform H right call := by
  have placement_eq : scheduler.placement H left = scheduler.placement H right :=
    placeWithin_congr alike _
  cases call with
  | addSubTrie =>
      simp only [perform, addSubTrie, scheduleRoot, placement_eq, scheduleNode_congr alike]
  | addCode => simp only [perform, addCode, scheduleCode_congr alike]
  | missing | processCode => rfl
  | processNode =>
      simp only [perform, processNode, deliver, placement_eq, resolve_congr alike]

end Scheduler

end TrieSync
