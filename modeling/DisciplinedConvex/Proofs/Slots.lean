import DisciplinedConvex.Layout
import DisciplinedConvex.Proofs.Meaning
import Mathlib.Algebra.Order.BigOperators.Group.List
import Mathlib.Algebra.Ring.Int.Defs

namespace DisciplinedConvex

def Slot.Contiguous : Int → List Slot → Prop
  | _, [] => True
  | start, slot :: rest => slot.start = start ∧ Contiguous slot.stop rest

def Slot.last (start : Int) (slots : List Slot) : Int := slots.foldl (fun _ slot => slot.stop) start

namespace Slot

theorem contiguous_append {start : Int} {as bs : List Slot} :
    Contiguous start (as ++ bs) ↔ Contiguous start as ∧ Contiguous (last start as) bs := by
  induction as generalizing start with
  | nil => exact (and_iff_right trivial).symm
  | cons s as ih =>
    rw [List.cons_append, Contiguous, Contiguous, ih, and_assoc]
    rfl

theorem Contiguous.last_eq {start : Int} {slots : List Slot} (h : Contiguous start slots) :
    last start slots = start + (slots.map (·.holder.size.count)).sum := by
  induction slots generalizing start with
  | nil => exact (add_zero start).symm
  | cons s rest ih =>
    have hrest := ih h.2
    have hstop : s.stop = start + s.holder.size.count := by rw [stop, h.1]
    change last s.stop rest = _
    rw [hrest, hstop, List.map_cons, List.sum_cons, add_assoc]

theorem length_eq (s : Slot) : s.length = s.holder.size.count.toNat := by
  rw [length, stop, add_sub_cancel_left]

theorem stop_eq {s : Slot} (h : 0 ≤ s.holder.size.count) : s.stop = s.start + s.length := by
  unfold length stop
  omega

theorem Contiguous.le_start {start : Int} {slots : List Slot} {s : Slot}
    (h : Contiguous start slots) (hn : ∀ t ∈ slots, 0 ≤ t.holder.size.count) (hs : s ∈ slots) :
    start ≤ s.start := by
  induction slots generalizing start with
  | nil => exact absurd hs List.not_mem_nil
  | cons t rest ih =>
    rcases List.mem_cons.mp hs with rfl | hs
    · exact le_of_eq h.1.symm
    · have hle := ih h.2 (fun t ht => hn t (List.mem_cons_of_mem _ ht)) hs
      have hstop := stop_eq (hn t (List.mem_cons_self ..))
      have hstart := h.1
      omega

theorem Contiguous.stop_le_last {start : Int} {slots : List Slot} {s : Slot}
    (h : Contiguous start slots) (hn : ∀ t ∈ slots, 0 ≤ t.holder.size.count) (hs : s ∈ slots) :
    s.stop ≤ last start slots := by
  have hle {start : Int} {slots : List Slot} (h : Contiguous start slots)
      (hn : ∀ t ∈ slots, 0 ≤ t.holder.size.count) : start ≤ last start slots := by
    have hsum := List.sum_nonneg (l := slots.map (·.holder.size.count)) (by simpa using hn)
    have := h.last_eq
    omega
  induction slots generalizing start with
  | nil => exact absurd hs List.not_mem_nil
  | cons t rest ih =>
    have hrest : ∀ t ∈ rest, 0 ≤ t.holder.size.count := fun t ht => hn t (List.mem_cons_of_mem _ ht)
    rcases List.mem_cons.mp hs with rfl | hs
    · exact hle h.2 hrest
    · exact ih h.2 hrest hs

theorem Contiguous.pairwise {start : Int} {slots : List Slot} (h : Contiguous start slots)
    (hn : ∀ t ∈ slots, 0 ≤ t.holder.size.count) :
    slots.Pairwise fun (s t : Slot) => s.start + s.length ≤ t.start := by
  induction slots generalizing start with
  | nil => exact .nil
  | cons s rest ih =>
    have hrest : ∀ t ∈ rest, 0 ≤ t.holder.size.count := fun t ht => hn t (List.mem_cons_of_mem _ ht)
    refine .cons (fun t ht => ?_) (ih h.2 hrest)
    rw [← stop_eq (hn s (List.mem_cons_self ..))]
    exact h.2.le_start hrest ht

theorem Contiguous.getElem?_flatMap {α : Type} {start : Int} {slots : List Slot} {s : Slot}
    {block : Slot → List α} (h : Contiguous start slots)
    (hn : ∀ t ∈ slots, 0 ≤ t.holder.size.count) (hb : ∀ t ∈ slots, (block t).length = t.length)
    (hs : s ∈ slots) {k : Nat} (hk : k < s.length) :
    (slots.flatMap block)[(s.start - start).toNat + k]? = (block s)[k]? := by
  induction slots generalizing start with
  | nil => exact absurd hs List.not_mem_nil
  | cons t rest ih =>
    have hnr : ∀ t ∈ rest, 0 ≤ t.holder.size.count := fun t ht => hn t (List.mem_cons_of_mem _ ht)
    have hbt := hb t (List.mem_cons_self ..)
    rw [List.flatMap_cons]
    rcases List.mem_cons.mp hs with rfl | hs
    · have hstart : (s.start - start).toNat + k = k := by
        have := h.1
        omega
      rw [hstart, List.getElem?_append_left (hbt.symm ▸ hk)]
    · have hle := h.2.le_start hnr hs
      have hstop := stop_eq (hn t (List.mem_cons_self ..))
      have hstart := h.1
      have hindex : (s.start - start).toNat + k =
          (block t).length + ((s.start - t.stop).toNat + k) := by omega
      rw [hindex, List.getElem?_append_right (Nat.le_add_right ..), Nat.add_sub_cancel_left]
      exact ih h.2 hnr (fun t ht => hb t (List.mem_cons_of_mem _ ht)) hs

theorem Contiguous.length_flatMap {α : Type} {start : Int} {slots : List Slot}
    {block : Slot → List α} (h : Contiguous start slots)
    (hn : ∀ t ∈ slots, 0 ≤ t.holder.size.count) (hb : ∀ t ∈ slots, (block t).length = t.length) :
    start + (slots.flatMap block).length = last start slots := by
  induction slots generalizing start with
  | nil => exact add_zero start
  | cons t rest ih =>
    have hrest := ih h.2 (fun t ht => hn t (List.mem_cons_of_mem _ ht))
      fun t ht => hb t (List.mem_cons_of_mem _ ht)
    have hbt := hb t (List.mem_cons_self ..)
    have hstop := stop_eq (hn t (List.mem_cons_self ..))
    have hstart := h.1
    change _ = last t.stop rest
    rw [List.flatMap_cons, List.length_append]
    omega

end Slot

namespace Layout

variable {α : Type} {L : Layout} {N N' : List (Node α)}

theorem last_slots (L : Layout) : Slot.last 0 L.slots.toList = L.size := by
  obtain ⟨⟨slots⟩⟩ := L
  rcases List.eq_nil_or_concat slots with rfl | ⟨rest, s, rfl⟩
  · rfl
  · simp [Slot.last, size]

/-- A layout whose slots follow one another, one for each of some unknowns of `N`. -/
structure Stacked (L : Layout) (N : List (Node α)) : Prop where
  holders : ∀ slot ∈ L.slots, ∃ u, slot.holder = .unknown u ∧ .unknown u ∈ N
  ids : (L.slots.toList.map (·.holder.id)).Nodup
  contiguous : Slot.Contiguous 0 L.slots.toList

theorem stacked_empty : empty.Stacked N where
  holders slot hs := absurd hs (Array.not_mem_empty slot)
  ids := List.nodup_nil
  contiguous := trivial

theorem Stacked.mono (h : L.Stacked N) (hN : N ⊆ N') : L.Stacked N' where
  holders slot hs := by
    obtain ⟨u, hu, hm⟩ := h.holders slot hs
    exact ⟨u, hu, hN hm⟩
  ids := h.ids
  contiguous := h.contiguous

theorem Stacked.register (h : L.Stacked N) {u : Unknown} (hu : .unknown u ∈ N) :
    (L.register (.unknown u)).Stacked N := by
  cases hc : L.contains (Holder.unknown u).id with
  | true => rwa [register_of_contains hc]
  | false =>
    rw [Layout.register, if_neg (Bool.eq_false_iff.mp hc)]
    refine ⟨fun slot hs => ?_, ?_, ?_⟩
    · rcases Array.mem_push.mp hs with hs | rfl
      · exact h.holders slot hs
      · exact ⟨u, rfl, hu⟩
    · rw [Array.toList_push, List.map_append, List.map_singleton]
      refine List.nodup_append.mpr ⟨h.ids, List.nodup_singleton _, ?_⟩
      rintro id hid _ hid' rfl
      obtain ⟨slot, hslot, rfl⟩ := List.mem_map.mp hid
      have hfind : (L.slots.find? (·.holder.id == (Holder.unknown u).id)).isSome = true := by
        rw [Array.find?_isSome]
        exact ⟨slot, Array.mem_toList_iff.mp hslot, beq_iff_eq.mpr (List.mem_singleton.mp hid')⟩
      rw [contains, find?, hfind] at hc
      cases hc
    · rw [Array.toList_push]
      exact Slot.contiguous_append.mpr ⟨h.contiguous, L.last_slots.symm, trivial⟩

theorem mem_of_find? {id : String} {slot : Slot} (h : L.find? id = some slot) :
    slot ∈ L.slots ∧ slot.holder.id = id := by
  have hid := Array.find?_some h
  exact ⟨Array.mem_of_find?_eq_some h, beq_iff_eq.mp hid⟩

theorem Stacked.count_nonneg (h : L.Stacked N) (hN : ∀ n ∈ N, n.size.Nonneg) :
    ∀ slot ∈ L.slots.toList, 0 ≤ slot.holder.size.count := by
  intro slot hs
  obtain ⟨u, hu, hm⟩ := h.holders slot (Array.mem_toList_iff.mp hs)
  have hnonneg : u.size.Nonneg := hN _ hm
  rw [hu]
  exact Int.mul_nonneg hnonneg.1 hnonneg.2

theorem Stacked.slot_of (h : L.Stacked N) (hN : Node.Faithful N) (hsize : ∀ n ∈ N, n.size.Nonneg)
    {u : Unknown} {slot : Slot} (hu : .unknown u ∈ N) (hs : L.find? u.id = some slot) :
    slot.holder = .unknown u ∧ 0 ≤ slot.start ∧ slot.stop ≤ L.size := by
  obtain ⟨hmem, hid⟩ := mem_of_find? hs
  obtain ⟨v, hv, hvN⟩ := h.holders slot hmem
  have hcounts := h.count_nonneg hsize
  refine ⟨?_, h.contiguous.le_start hcounts (Array.mem_toList_iff.mpr hmem), ?_⟩
  · rw [hv] at hid ⊢
    exact congrArg Holder.unknown (Node.unknown.inj (hN _ hvN _ hu hid).unknown_eq)
  · rw [← L.last_slots]
    exact h.contiguous.stop_le_last hcounts (Array.mem_toList_iff.mpr hmem)

theorem Stacked.eq_of_column (h : L.Stacked N) (hN : ∀ n ∈ N, n.size.Nonneg) {a b : Slot}
    (ha : a ∈ L.slots) (hb : b ∈ L.slots) {j k : Nat} (hj : j < a.length) (hk : k < b.length)
    (he : a.start + j = b.start + k) : a = b := by
  by_contra hne
  let Apart (s t : Slot) : Prop := s.start + s.length ≤ t.start ∨ t.start + t.length ≤ s.start
  have hsymm : Std.Symm Apart := ⟨fun _ _ => Or.symm⟩
  have hapart : L.slots.toList.Pairwise Apart :=
    (h.contiguous.pairwise (h.count_nonneg hN)).imp .inl
  have hab : a.start + a.length ≤ b.start ∨ b.start + b.length ≤ a.start :=
    hapart.forall (Array.mem_toList_iff.mpr ha) (Array.mem_toList_iff.mpr hb) hne
  omega

theorem Stacked.size_nonneg (h : L.Stacked N) (hsize : ∀ n ∈ N, n.size.Nonneg) : 0 ≤ L.size := by
  have hsum := List.sum_nonneg (l := L.slots.toList.map (·.holder.size.count))
    (by simpa using h.count_nonneg hsize)
  have := h.contiguous.last_eq
  rw [← L.last_slots]
  omega

theorem size_le_register {h : Holder} (hcount : 0 ≤ h.size.count) : L.size ≤ (L.register h).size := by
  cases hc : L.contains h.id with
  | true => rw [register_of_contains hc]
  | false =>
    rw [size_register hc]
    exact le_add_of_nonneg_right hcount

theorem Stacked.exists_vector (h : L.Stacked N) (hN : ∀ n ∈ N, n.size.Nonneg)
    {block : Slot → Array α} (hb : ∀ slot ∈ L.slots, (block slot).size = slot.length) :
    ∃ z : Array α, (z.size : Int) = L.size ∧
      ∀ slot ∈ L.slots, ∀ k < slot.length, z[slot.start.toNat + k]? = (block slot)[k]? := by
  have hn := h.count_nonneg hN
  have hblock : ∀ slot ∈ L.slots.toList, (block slot).toList.length = slot.length := fun slot hs =>
    (block slot).length_toList.trans (hb slot (Array.mem_toList_iff.mp hs))
  refine ⟨(L.slots.toList.flatMap fun slot => (block slot).toList).toArray, ?_, ?_⟩
  · rw [List.size_toArray, ← L.last_slots, ← h.contiguous.length_flatMap hn hblock, zero_add]
  · intro slot hs k hk
    have hz := h.contiguous.getElem?_flatMap hn hblock (Array.mem_toList_iff.mpr hs) hk
    rw [Int.sub_zero] at hz
    rw [List.getElem?_toArray, hz, Array.getElem?_toList]

end Layout

end DisciplinedConvex
