import DisciplinedConvex.Proofs.Evaluation

namespace DisciplinedConvex

variable {α : Type}

namespace Slot

variable {start k : Int} {slots : List Slot} {slot : Slot}

theorem Contiguous.exists_mem (h : Contiguous start slots) (hk : start ≤ k)
    (hlast : k < last start slots) : ∃ slot ∈ slots, slot.start ≤ k ∧ k < slot.stop := by
  induction slots generalizing start with
  | nil => exact absurd hk (not_le.mpr hlast)
  | cons s rest ih =>
    by_cases hs : k < s.stop
    · exact ⟨s, List.mem_cons_self .., h.1.trans_le hk, hs⟩
    · obtain ⟨slot, hmem, hslot⟩ := ih h.2 (not_lt.mp hs) hlast
      exact ⟨slot, List.mem_cons_of_mem _ hmem, hslot⟩

def part (slot : Slot) (x : Array α) : Array α := x.extract slot.start.toNat slot.stop.toNat

def block [Zero α] (values : Assignment α) (slot : Slot) : List α :=
  match slot.holder with
  | .other .. => []
  | .unknown u =>
    match u.valueIn values with
    | .error _ => []
    | .ok A => A.vec.toList

theorem length_of_holder {u : Unknown} (hu : slot.holder = .unknown u) (hs : u.size.Nonneg) :
    slot.length = u.size.height * u.size.width := by
  rw [slot.length_eq, hu]
  exact congrArg Int.toNat hs.count_eq

theorem block_of_valueIn [Zero α] {values : Assignment α} {u : Unknown} {A : Dense α}
    (hu : slot.holder = .unknown u) (hA : u.valueIn values = .ok A) :
    slot.block values = A.vec.toList := by
  simp only [block, hu, hA]

theorem length_block [Zero α] {values : Assignment α} {u : Unknown} {A : Dense α}
    (hu : slot.holder = .unknown u) (hs : u.size.Nonneg) (hA : u.valueIn values = .ok A) :
    (slot.block values).length = slot.length := by
  have hsize := Unknown.size_of_valueIn hA
  rw [block_of_valueIn hu hA, Array.length_toList, A.size_vec, Dense.rows_eq hsize,
    Dense.cols_eq hsize, length_of_holder hu hs]

end Slot

theorem Unknown.coerce_congr [Zero α] {u : Unknown} {t t' : Tensor α} {A : Dense α}
    (h : u.coerce t = .ok A) (hs : u.size.Nonneg) (ht : t'.columnMajor = A.vec) :
    u.coerce t' = .ok A := by
  obtain ⟨hsize, hvec⟩ := coerce_eq_ok h
  have hcount : t'.entries.size = t.entries.size := by
    rw [← t'.size_columnMajor, ← t.size_columnMajor, ht, hvec]
  have hreason : Failure.of? (u.coerce t') = Failure.of? (u.coerce t) := by
    rw [of?_coerce hs, of?_coerce hs, hcount]
  cases hB : u.coerce t' with
  | error f =>
    rw [hB, h] at hreason
    cases hreason
  | ok B =>
    obtain ⟨hsize', hvec'⟩ := coerce_eq_ok hB
    rw [Dense.ext_vec ((Dense.rows_eq hsize').trans (Dense.rows_eq hsize).symm)
      ((Dense.cols_eq hsize').trans (Dense.cols_eq hsize).symm) (hvec'.trans ht)]

def Holder.unknown? : Holder → Option Unknown
  | .unknown u => some u
  | .other .. => none

namespace Layout

variable {L : Layout} {N : List (Node α)} {values : Assignment α} {x y : Array α}

def unknowns (L : Layout) : List Unknown := L.holders.filterMap Holder.unknown?

def parts (L : Layout) (x : Array α) : Assignment α := fun id =>
  (L.find? id).map fun slot => .ok (.vector (slot.part x))

section Registering

variable {us vs : List Unknown}

theorem contains_eq_any (L : Layout) (id : String) :
    L.contains id = L.holders.any fun h => h.id == id := by
  rw [Bool.eq_iff_iff, contains, find?, Array.find?_isSome, List.any_eq_true]
  simp [holders]

theorem holders_foldl_register (h : L.holders = vs.map .unknown) :
    ((us.map Holder.unknown).foldl register L).holders =
      (List.eraseDupsBy.loop (fun u v => u.id == v.id) us vs.reverse).map .unknown := by
  induction us generalizing L vs with
  | nil => rw [List.map_nil, List.foldl_nil, h, List.eraseDupsBy.loop, List.reverse_reverse]
  | cons u us ih =>
    have hc : L.contains u.id = vs.reverse.any fun v => u.id == v.id := by
      rw [contains_eq_any, h, List.any_map, List.any_reverse]
      exact congrArg vs.any (funext fun v => Bool.beq_comm)
    rw [List.map_cons, List.foldl_cons, List.eraseDupsBy.loop, ← hc]
    cases hu : L.contains u.id with
    | true => rw [register_of_contains (h := .unknown u) hu, ih h]
    | false =>
      have hnext : (L.register (.unknown u)).holders = (vs ++ [u]).map .unknown := by
        rw [holders_register_of_not_contains (h := .unknown u) hu, h, List.map_append]
        rfl
      rw [ih hnext, List.reverse_append]
      rfl

theorem holders_ofList (us : List Unknown) :
    (ofList (us.map .unknown)).holders =
      (us.eraseDupsBy fun u v => u.id == v.id).map .unknown := by
  have hempty : empty.holders = ([] : List Unknown).map .unknown := rfl
  exact holders_foldl_register hempty

theorem unknowns_ofList (us : List Unknown) :
    (ofList (us.map .unknown)).unknowns = us.eraseDupsBy fun u v => u.id == v.id := by
  rw [unknowns, holders_ofList, List.filterMap_map]
  exact List.filterMap_some

theorem stacked_ofList (us : List Unknown) :
    (ofList (us.map .unknown)).Stacked (us.map (Node.unknown (α := α))) := by
  refine List.foldlRecOn (us.map .unknown) register
    (motive := fun L => L.Stacked (us.map (Node.unknown (α := α)))) stacked_empty fun L hL k hk => ?_
  obtain ⟨u, hu, rfl⟩ := List.mem_map.mp hk
  exact hL.register (List.mem_map_of_mem hu)

theorem le_foldl_register (L : Layout) (hs : List Holder) : L ≤ hs.foldl register L :=
  List.foldlRecOn hs register (le_refl L) fun L' h k _ => h.trans (L'.le_register k)

theorem contains_foldl_register {h : Holder} {hs : List Holder} (hh : h ∈ hs) :
    (hs.foldl register L).contains h.id = true := by
  obtain ⟨before, after, rfl⟩ := List.append_of_mem hh
  obtain ⟨slot, hslot⟩ := Option.isSome_iff_exists.mp
    ((before.foldl register L).contains_register h)
  rw [List.foldl_append, List.foldl_cons, contains,
    find?_of_le (le_foldl_register _ after) hslot]
  rfl

theorem slotOf_of_find? {h : Holder} {slot : Slot} (hs : L.find? h.id = some slot) :
    L.slotOf h = .ok slot := by
  rw [slotOf, hs]

theorem register_of_mem {h : Holder} {hs : List Holder} (hh : h ∈ hs) :
    (ofList hs).register h = ofList hs ∧
      ∀ later : List Holder, (later.foldl register (ofList hs)).slotOf h = (ofList hs).slotOf h := by
  have hc : (ofList hs).contains h.id = true := contains_foldl_register hh
  obtain ⟨slot, hslot⟩ := Option.isSome_iff_exists.mp hc
  refine ⟨register_of_contains hc, fun later => ?_⟩
  rw [slotOf_of_find? (find?_of_le (le_foldl_register _ later) hslot), slotOf_of_find? hslot]

end Registering

structure Tiled (L : Layout) : Prop where
  contiguous : Slot.Contiguous 0 L.slots.toList
  disjoint : L.slots.toList.Pairwise fun s t => s.stop ≤ t.start
  covers : ∀ k : Int, 0 ≤ k ∧ k < L.size ↔ ∃ slot ∈ L.slots, slot.start ≤ k ∧ k < slot.stop

section Vectors

variable (h : L.Stacked N) (hN : ∀ n ∈ N, n.size.Nonneg)

include h hN

theorem Stacked.bounds {slot : Slot} (hs : slot ∈ L.slots) :
    0 ≤ slot.start ∧ slot.stop = slot.start + slot.length ∧ slot.stop ≤ L.size := by
  have hmem := Array.mem_toList_iff.mpr hs
  have hcounts := h.count_nonneg hN
  refine ⟨h.contiguous.le_start hcounts hmem, Slot.stop_eq (hcounts slot hmem), ?_⟩
  rw [← L.last_slots]
  exact h.contiguous.stop_le_last hcounts hmem

theorem Stacked.tiled : L.Tiled := by
  have hcounts := h.count_nonneg hN
  refine ⟨h.contiguous, ?_, fun k => ⟨fun ⟨hk, hlt⟩ => ?_, fun ⟨slot, hslot, hk, hlt⟩ => ?_⟩⟩
  · refine List.Pairwise.imp_of_mem (fun hs _ hst => ?_) (h.contiguous.pairwise hcounts)
    rwa [Slot.stop_eq (hcounts _ hs)]
  · rw [← L.last_slots] at hlt
    obtain ⟨slot, hslot, hbounds⟩ := h.contiguous.exists_mem hk hlt
    exact ⟨slot, Array.mem_toList_iff.mp hslot, hbounds⟩
  · obtain ⟨hstart, -, hstop⟩ := h.bounds hN hslot
    exact ⟨hstart.trans hk, hlt.trans_le hstop⟩

theorem Stacked.getElem?_part {slot : Slot} (hs : slot ∈ L.slots) (hx : (x.size : Int) = L.size)
    {k : Nat} (hk : k < slot.length) : (slot.part x)[k]? = x[slot.start.toNat + k]? := by
  obtain ⟨hstart, hlength, hstop⟩ := h.bounds hN hs
  rw [Slot.part, Array.getElem?_extract, if_pos (by omega)]

theorem Stacked.size_part {slot : Slot} (hs : slot ∈ L.slots) (hx : (x.size : Int) = L.size) :
    (slot.part x).size = slot.length := by
  obtain ⟨hstart, hlength, hstop⟩ := h.bounds hN hs
  rw [Slot.part, Array.size_extract]
  omega

theorem Stacked.eq_of_parts (hx : (x.size : Int) = L.size) (hy : (y.size : Int) = L.size)
    (hparts : ∀ slot ∈ L.slots, slot.part x = slot.part y) : x = y := by
  refine Array.ext_getElem? fun k => ?_
  by_cases hk : k < x.size
  · obtain ⟨slot, hslot, hle, hlt⟩ := ((h.tiled hN).covers k).mp ⟨by omega, by omega⟩
    obtain ⟨hstart, hlength, -⟩ := h.bounds hN hslot
    have hindex : k = slot.start.toNat + (k - slot.start.toNat) := by omega
    have hinside : k - slot.start.toNat < slot.length := by omega
    rw [hindex, ← h.getElem?_part hN hslot hx hinside, ← h.getElem?_part hN hslot hy hinside,
      hparts slot hslot]
  · rw [Array.getElem?_eq_none (not_lt.mp hk), Array.getElem?_eq_none (by omega)]

theorem Stacked.part_flatMap {block : Slot → List α}
    (hb : ∀ slot ∈ L.slots.toList, (block slot).length = slot.length) :
    ((L.slots.toList.flatMap block).toArray.size : Int) = L.size ∧
      ∀ slot ∈ L.slots, slot.part (L.slots.toList.flatMap block).toArray = (block slot).toArray := by
  have hcounts := h.count_nonneg hN
  have hsize : ((L.slots.toList.flatMap block).toArray.size : Int) = L.size := by
    rw [List.size_toArray, ← L.last_slots, ← h.contiguous.length_flatMap hcounts hb, zero_add]
  refine ⟨hsize, fun slot hslot => Array.ext_getElem? fun k => ?_⟩
  have hmem := Array.mem_toList_iff.mpr hslot
  have hlength := hb slot hmem
  by_cases hk : k < slot.length
  · have hflat := h.contiguous.getElem?_flatMap hcounts hb hmem hk
    rw [Int.sub_zero] at hflat
    rw [h.getElem?_part hN hslot hsize hk, List.getElem?_toArray, hflat, List.getElem?_toArray]
  · have hpart := h.size_part hN hslot hsize
    rw [Array.getElem?_eq_none (by omega), List.getElem?_toArray, List.getElem?_eq_none (by omega)]

theorem Stacked.unknown_of_slot {slot : Slot} (hs : slot ∈ L.slots) :
    ∃ u ∈ L.unknowns, slot.holder = .unknown u ∧ u.size.Nonneg ∧ L.find? u.id = some slot := by
  obtain ⟨u, hu, huN⟩ := h.holders slot hs
  have hmem := Array.mem_toList_iff.mpr hs
  refine ⟨u, List.mem_filterMap.mpr ⟨_, List.mem_map_of_mem hmem, by rw [hu]; rfl⟩, hu, hN _ huN, ?_⟩
  have hid : slot.holder.id = u.id := congrArg Holder.id hu
  have hc : L.contains u.id = true := hid ▸ contains_of_mem_holders (List.mem_map_of_mem hmem)
  obtain ⟨slot', hslot'⟩ := Option.isSome_iff_exists.mp hc
  obtain ⟨hmem', hid'⟩ := mem_of_find? hslot'
  rw [hslot', List.inj_on_of_nodup_map h.ids (Array.mem_toList_iff.mpr hmem') hmem
    (hid'.trans hid.symm)]

theorem Stacked.slot_of_unknown {u : Unknown} (hu : u ∈ L.unknowns) :
    ∃ slot ∈ L.slots, slot.holder = .unknown u ∧ u.size.Nonneg ∧ L.find? u.id = some slot := by
  obtain ⟨holder, hholder, he⟩ := List.mem_filterMap.mp hu
  obtain ⟨slot, hslot, rfl⟩ := List.mem_map.mp hholder
  have hmem := Array.mem_toList_iff.mp hslot
  obtain ⟨v, -, hv, hs, hfind⟩ := h.unknown_of_slot hN hmem
  rw [hv] at he
  obtain rfl := Option.some.inj he
  exact ⟨slot, hmem, hv, hs, hfind⟩

end Vectors

section Stack

variable [Zero α]

theorem writeSlot_eq {slot : Slot} {u : Unknown} {written : Array α} {length : Nat}
    (hu : slot.holder = .unknown u) (hs : u.size.Nonneg)
    (hfit : written.size + slot.length ≤ length) :
    writeSlot values length written slot =
      (u.refusal? values).elim (.ok (written ++ (slot.block values).toArray)) .error := by
  rw [writeSlot, hu, ← u.of?_valueIn hs]
  dsimp only
  cases hA : u.valueIn values with
  | error f => rfl
  | ok A =>
    have hblock := Slot.block_of_valueIn hu hA
    have hsize : A.vec.size = slot.length := by
      rw [← Slot.length_block hu hs hA, hblock, Array.length_toList]
    have hroom : ¬(decide (1 < A.vec.size) && decide (length < written.size + A.vec.size)) = true := by
      simp only [Bool.and_eq_true, decide_eq_true_eq]
      omega
    rw [hblock, Array.toArray_toList]
    exact if_neg hroom

theorem foldlM_writeSlot {start : Int} {slots : List Slot} {written : Array α} {length : Nat}
    (h : Slot.Contiguous start slots)
    (hheld : ∀ slot ∈ slots, ∃ u, slot.holder = .unknown u ∧ u.size.Nonneg)
    (hw : (written.size : Int) = start) (hlast : Slot.last start slots ≤ length) :
    slots.foldlM (writeSlot values length) written =
      ((slots.filterMap (·.holder.unknown?)).findSome? (Unknown.refusal? values)).elim
        (.ok (written ++ (slots.flatMap (Slot.block values)).toArray)) .error := by
  induction slots generalizing start written with
  | nil => simp [pure, Except.pure]
  | cons slot rest ih =>
    obtain ⟨u, hu, hs⟩ := hheld slot (List.mem_cons_self ..)
    have hcounts : ∀ t ∈ slot :: rest, 0 ≤ t.holder.size.count := by
      intro t ht
      obtain ⟨v, hv, hvs⟩ := hheld t ht
      rw [hv]
      exact Int.mul_nonneg hvs.1 hvs.2
    have hstop := Slot.stop_eq (hcounts slot (List.mem_cons_self ..))
    have hstart := h.1
    have hle := h.stop_le_last hcounts (List.mem_cons_self ..)
    have hfirst : slot.holder.unknown? = some u := by
      rw [hu]
      rfl
    rw [List.foldlM_cons, writeSlot_eq hu hs (by omega),
      List.filterMap_cons_some (f := fun s : Slot => s.holder.unknown?) hfirst, List.findSome?_cons]
    cases hr : u.refusal? values with
    | some f => rfl
    | none =>
      obtain ⟨A, hA⟩ := Failure.of?_eq_none_iff.mp ((u.of?_valueIn hs values).trans hr)
      have hnext : ((written ++ (slot.block values).toArray).size : Int) = slot.stop := by
        simp only [Array.size_append, List.size_toArray, Slot.length_block hu hs hA]
        omega
      have happend : written ++ (slot.block values).toArray ++
          (rest.flatMap (Slot.block values)).toArray =
            written ++ ((slot :: rest).flatMap (Slot.block values)).toArray := by simp
      rw [← happend]
      exact ih h.2 (fun t ht => hheld t (List.mem_cons_of_mem _ ht)) hnext hlast

theorem Stacked.stack_eq (h : L.Stacked N) (hN : ∀ n ∈ N, n.size.Nonneg) (values : Assignment α) :
    L.stack values = if (Extent.entryLimit : Int) ≤ L.size then .error .arrayTooLarge
      else (L.unknowns.findSome? (Unknown.refusal? values)).elim
        (.ok (L.slots.toList.flatMap (Slot.block values)).toArray) .error := by
  have h0 := h.size_nonneg hN
  have hheld : ∀ slot ∈ L.slots.toList, ∃ u, slot.holder = .unknown u ∧ u.size.Nonneg := by
    intro slot hs
    obtain ⟨u, hu, huN⟩ := h.holders slot (Array.mem_toList_iff.mp hs)
    exact ⟨u, hu, hN _ huN⟩
  rw [stack]
  cases hv : Extent.vector L.size with
  | error f =>
    obtain ⟨rfl, hle⟩ := Extent.vector_error hv h0
    rw [if_pos (by omega)]
    rfl
  | ok length =>
    obtain ⟨hlength, hlt⟩ := (Extent.vector_eq_ok_iff _ _).mp hv
    rw [if_neg (by omega)]
    have hlast : Slot.last 0 L.slots.toList ≤ length := L.last_slots.trans_le hlength.le
    change L.slots.foldlM (writeSlot values length) #[] = _
    rw [← Array.foldlM_toList, foldlM_writeSlot h.contiguous hheld rfl hlast, Array.empty_append,
      unknowns, Layout.holders, List.filterMap_map]
    rfl

section Lossless

variable (h : L.Stacked N) (hN : ∀ n ∈ N, n.size.Nonneg)

include h hN

theorem Stacked.stack_error_iff (values : Assignment α) (f : Failure) : L.stack values = .error f ↔
    (Extent.entryLimit : Int) ≤ L.size ∧ f = .arrayTooLarge ∨
    L.size < Extent.entryLimit ∧ L.unknowns.findSome? (Unknown.refusal? values) = some f := by
  rw [h.stack_eq hN]
  by_cases hlimit : (Extent.entryLimit : Int) ≤ L.size
  · simp [hlimit, eq_comm]
  · rw [if_neg hlimit]
    cases hr : L.unknowns.findSome? (Unknown.refusal? values) with
    | none => simp [hlimit]
    | some e => simp [hlimit, not_le.mp hlimit]

theorem Stacked.part_of_stack (hx : L.stack values = .ok x) : (x.size : Int) = L.size ∧
    ∀ slot ∈ L.slots, ∀ u, slot.holder = .unknown u →
      ∃ A, u.valueIn values = .ok A ∧ slot.part x = A.vec := by
  rw [h.stack_eq hN] at hx
  split at hx
  · cases hx
  cases hr : L.unknowns.findSome? (Unknown.refusal? values) with
  | some f =>
    rw [hr] at hx
    cases hx
  | none =>
    rw [hr] at hx
    obtain rfl := Except.ok.inj hx
    have hvalue : ∀ slot ∈ L.slots, ∃ u A, slot.holder = .unknown u ∧ u.size.Nonneg ∧
        u.valueIn values = .ok A := by
      intro slot hslot
      obtain ⟨u, hmem, hu, hs, -⟩ := h.unknown_of_slot hN hslot
      obtain ⟨A, hA⟩ := Failure.of?_eq_none_iff.mp
        ((u.of?_valueIn hs values).trans (List.findSome?_eq_none_iff.mp hr u hmem))
      exact ⟨u, A, hu, hs, hA⟩
    have hblock : ∀ slot ∈ L.slots.toList, (slot.block values).length = slot.length := by
      intro slot hslot
      obtain ⟨u, A, hu, hs, hA⟩ := hvalue slot (Array.mem_toList_iff.mp hslot)
      exact Slot.length_block hu hs hA
    obtain ⟨hsize, hpart⟩ := h.part_flatMap hN hblock
    refine ⟨hsize, fun slot hslot u hu => ?_⟩
    obtain ⟨v, A, hv, -, hA⟩ := hvalue slot hslot
    obtain rfl := Holder.unknown.inj (hu.symm.trans hv)
    exact ⟨A, hA, by rw [hpart slot hslot, Slot.block_of_valueIn hu hA, Array.toArray_toList]⟩

theorem Stacked.coerce_part (hx : L.stack values = .ok x) {u : Unknown} (hu : u ∈ L.unknowns) :
    ∃ slot t A, L.slotOf (.unknown u) = .ok slot ∧ values u.id = some (.ok t) ∧
      u.coerce t = .ok A ∧ u.coerce (.vector (slot.part x)) = .ok A := by
  obtain ⟨slot, hslot, hheld, hs, hfind⟩ := h.slot_of_unknown hN hu
  obtain ⟨A, hA, hpart⟩ := (h.part_of_stack hN hx).2 slot hslot u hheld
  obtain ⟨t, ht, hcoerce⟩ := Unknown.valueIn_eq_ok_iff.mp hA
  refine ⟨slot, t, A, slotOf_of_find? (h := .unknown u) hfind, ht, hcoerce,
    Unknown.coerce_congr hcoerce hs ?_⟩
  rw [Tensor.columnMajor_vector, hpart]

theorem Stacked.stack_parts (hx : (x.size : Int) = L.size) (hlimit : L.size < Extent.entryLimit)
    (hfit : ∀ u ∈ L.unknowns, u.size.excess? = none) : L.stack (L.parts x) = .ok x := by
  have hgiven {slot : Slot} {u : Unknown} (hfind : L.find? u.id = some slot) :
      L.parts x u.id = some (.ok (.vector (slot.part x))) := by
    rw [parts, hfind]
    rfl
  have hgives : ∀ u ∈ L.unknowns, u.refusal? (L.parts x) = none := by
    intro u hu
    obtain ⟨slot, hslot, hheld, hs, hfind⟩ := h.slot_of_unknown hN hu
    have hcount : ((slot.part x).size : Int) = u.size.count := by
      rw [h.size_part hN hslot hx, Slot.length_of_holder hheld hs, hs.count_eq]
    rw [Unknown.refusal?, hfit u hu, Option.or_none]
    exact Unknown.lack?_eq_none_iff.mpr ⟨_, hgiven hfind, hcount⟩
  obtain ⟨y, hy⟩ : ∃ y, L.stack (L.parts x) = .ok y := by
    rw [h.stack_eq hN, if_neg (not_le.mpr hlimit), List.findSome?_eq_none_iff.mpr hgives]
    exact ⟨_, rfl⟩
  obtain ⟨hsize, hparts⟩ := h.part_of_stack hN hy
  rw [hy, h.eq_of_parts hN hsize hx fun slot hslot => ?_]
  obtain ⟨u, -, hu, -, hfind⟩ := h.unknown_of_slot hN hslot
  obtain ⟨A, hA, hpart⟩ := hparts slot hslot u hu
  obtain ⟨t, ht, hcoerce⟩ := Unknown.valueIn_eq_ok_iff.mp hA
  obtain rfl := Except.ok.inj (Option.some.inj ((hgiven hfind).symm.trans ht))
  rw [hpart, (Unknown.coerce_eq_ok hcoerce).2, Tensor.columnMajor_vector]

end Lossless

/-- Unknowns that were registered one after the other, some perhaps again, divide the stacked vector
among themselves, each behind those that were registered before it, and keep their slots. Stacking
fails exactly if the vector would be too large, or some unknown has no value, and then for the first
such unknown; as long as no array is too large, only the numbers for an unknown can be missing or not
as many as it has entries. What was stacked is read back from the slots, and what is read from the
slots of a vector stacks up to this vector. -/
theorem stack_lossless {us : List Unknown} (hL : L = ofList (us.map .unknown))
    (hus : ∀ u ∈ us, u.size.Nonneg) :
    (L.unknowns = us.eraseDupsBy (fun u v => u.id == v.id) ∧ L.holders = L.unknowns.map .unknown ∧
      L.Tiled) ∧
    (∀ u ∈ us, L.register (.unknown u) = L ∧
      ∀ later : List Holder, (later.foldl register L).slotOf (.unknown u) = L.slotOf (.unknown u)) ∧
    (∀ (values : Assignment α) f, L.stack values = .error f ↔
      (Extent.entryLimit : Int) ≤ L.size ∧ f = .arrayTooLarge ∨
      L.size < Extent.entryLimit ∧ L.unknowns.findSome? (Unknown.refusal? values) = some f) ∧
    (∀ (values : Assignment α) x, L.stack values = .ok x → (x.size : Int) = L.size ∧
      ∀ u ∈ L.unknowns, ∃ slot t A, L.slotOf (.unknown u) = .ok slot ∧
        values u.id = some (.ok t) ∧ u.coerce t = .ok A ∧
        u.coerce (.vector (slot.part x)) = .ok A) ∧
    (L.size < Extent.entryLimit → (∀ u ∈ L.unknowns, u.size.excess? = none) →
      (∀ (values : Assignment α) f, L.stack values = .error f ↔
        L.unknowns.findSome? (Unknown.lack? values) = some f) ∧
      ∀ x : Array α, (x.size : Int) = L.size → L.stack (L.parts x) = .ok x) := by
  subst hL
  have h := stacked_ofList (α := α) us
  have hN : ∀ n ∈ us.map (Node.unknown (α := α)), n.size.Nonneg := by
    intro n hn
    obtain ⟨u, hu, rfl⟩ := List.mem_map.mp hn
    exact hus u hu
  have hunknowns := unknowns_ofList us
  refine ⟨⟨hunknowns, hunknowns ▸ holders_ofList us, h.tiled hN⟩, fun u hu => ?_,
    h.stack_error_iff hN, fun values x hx => ⟨(h.part_of_stack hN hx).1, fun u hu =>
      h.coerce_part hN hx hu⟩, fun hlimit hfit => ⟨fun values f => ?_, fun x hx =>
      h.stack_parts hN hx hlimit hfit⟩⟩
  · exact register_of_mem (List.mem_map_of_mem hu)
  · have hlack : ∀ u ∈ (ofList (us.map .unknown)).unknowns,
        u.refusal? values = u.lack? values := by
      intro u hu
      rw [Unknown.refusal?, hfit u hu, Option.or_none]
    rw [h.stack_error_iff hN, ← List.head?_filterMap, List.filterMap_congr hlack,
      List.head?_filterMap]
    simp [hlimit, not_le.mpr hlimit]

end Stack

open Compilation

theorem namesakes_stacked :
    let L := ofList ([low, high, low].map .unknown)
    L.unknowns = [low, high] ∧ L.size = 3 ∧
      L.stack (L.parts #[(5 : ℚ), 7, 11]) = .ok #[5, 7, 11] := by
  intro L
  have hnonneg : ∀ u ∈ [low, high, low], u.size.Nonneg := by
    intro u hu
    simp only [List.mem_cons, List.not_mem_nil, or_false] at hu
    rcases hu with rfl | rfl | rfl
    all_goals exact ⟨by decide, by decide⟩
  have hsize : L.size = 3 := by decide +kernel
  have hdistinct : [low, high, low].eraseDupsBy (fun u v => u.id == v.id) = [low, high] := by
    decide +kernel
  obtain ⟨⟨hunknowns, -⟩, -, -, -, hparts⟩ :=
    stack_lossless (α := ℚ) (rfl : L = ofList ([low, high, low].map .unknown)) hnonneg
  have hfit : ∀ u ∈ L.unknowns, u.size.excess? = none := by
    rw [hunknowns, hdistinct]
    decide
  refine ⟨hunknowns.trans hdistinct, hsize, (hparts ?_ hfit).2 _ hsize.symm⟩
  rw [hsize]
  decide

/-- The slot of an unknown that was given all its entries, none, is not filled if there are as many
columns as an array cannot have. -/
theorem strip_unstackable : strip.size.Nonneg ∧ hollow.Gives strip ∧
    (ofList [.unknown strip]).size = 0 ∧
    (ofList [.unknown strip]).stack hollow = .error .arrayTooLarge := by
  have hN : ∀ n ∈ [strip].map (Node.unknown (α := ℚ)), n.size.Nonneg := by
    intro n hn
    rw [List.mem_singleton.mp hn]
    exact strip_nonneg
  refine ⟨strip_nonneg, hollow_gives_strip, rfl, ?_⟩
  refine ((stacked_ofList [strip]).stack_error_iff hN hollow _).mpr (.inr ⟨by decide, ?_⟩)
  rw [unknowns_ofList]
  change [strip].findSome? (Unknown.refusal? hollow) = _
  rw [List.findSome?_singleton, refusal?_strip]

end Layout

end DisciplinedConvex
