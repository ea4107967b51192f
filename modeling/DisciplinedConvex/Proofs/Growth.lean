import DisciplinedConvex.Proofs.Memory
import DisciplinedConvex.Proofs.Moves
import DisciplinedConvex.Proofs.Slots

open DisciplinedConvex.Task

namespace DisciplinedConvex

namespace Layout

instance : Preorder Layout where
  le L L' := ∃ new, L'.slots.toList = L.slots.toList ++ new ∧ Slot.Contiguous L.size new
  le_refl L := ⟨[], (List.append_nil _).symm, trivial⟩
  le_trans K L M := by
    rintro ⟨as, hL, has⟩ ⟨bs, hM, hbs⟩
    refine ⟨as ++ bs, by rw [hM, hL, List.append_assoc], Slot.contiguous_append.mpr ⟨has, ?_⟩⟩
    have hsize : Slot.last K.size as = L.size := by
      rw [← L.last_slots, hL, ← K.last_slots, Slot.last, Slot.last, Slot.last, List.foldl_append]
    rwa [hsize]

theorem le_register (L : Layout) (h : Holder) : L ≤ L.register h := by
  cases hc : L.contains h.id with
  | true =>
    rw [register_of_contains hc]
  | false =>
    refine ⟨[⟨h, L.size⟩], ?_, rfl, trivial⟩
    rw [register, if_neg (Bool.eq_false_iff.mp hc), Array.toList_push]

theorem find?_of_le {L L' : Layout} (h : L ≤ L') {id : String} {slot : Slot}
    (hs : L.find? id = some slot) : L'.find? id = some slot := by
  obtain ⟨new, hL', -⟩ := h
  rw [find?, ← Array.find?_toList] at hs ⊢
  rw [hL', List.find?_append, hs]
  rfl

theorem size_of_slots {L L' : Layout} {new : List Slot} (h : L'.slots.toList = L.slots.toList ++ new)
    (hnew : Slot.Contiguous L.size new) :
    L'.size = L.size + (new.map (·.holder.size.count)).sum := by
  rw [← hnew.last_eq, ← L.last_slots, ← L'.last_slots, h, Slot.last, List.foldl_append]
  rfl

end Layout

variable {α : Type}

instance : Preorder (Pass α) where
  le P Q := P.config = Q.config ∧ ∀ id F, P.find? id = some F → Q.find? id = some F
  le_refl _ := ⟨rfl, fun _ _ h => h⟩
  le_trans _ _ _ h h' := ⟨h.1.trans h'.1, fun id F hF => h'.2 id F (h.2 id F hF)⟩

instance : Preorder (Compilation α) where
  le s t := s.workspace ≤ t.workspace ∧ s.layout ≤ t.layout ∧ s.pass ≤ t.pass
  le_refl s := ⟨le_refl s.workspace, le_refl s.layout, le_refl s.pass⟩
  le_trans _ _ _ h h' := ⟨h.1.trans h'.1, h.2.1.trans h'.2.1, h.2.2.trans h'.2.2⟩

variable [Scalar α]

namespace Compilation

variable {s s' : Compilation α} {ns M : List (Node α)} {held : String → Prop} {β : Type}

theorem Move.workspace_le (h : Move ns held s s') : s.workspace ≤ s'.workspace := by
  cases h with
  | ask n hn => exact Node.extends_askVexity n s.workspace.verdicts
  | register | introduce | hit | store | demand => exact le_refl s.workspace

theorem Move.layout_le (h : Move ns held s s') : s.layout ≤ s'.layout := by
  cases h with
  | register | introduce => exact Layout.le_register ..
  | ask | hit | store | demand => exact le_refl s.layout

theorem Move.config_eq (h : Move ns held s s') : s.pass.config = s'.pass.config := by
  cases h <;> rfl

theorem Moves.workspace_le (h : Moves ns held s s') : s.workspace ≤ s'.workspace := by
  induction h with
  | refl => exact le_refl s.workspace
  | tail _ h ih => exact ih.trans h.workspace_le

theorem Moves.layout_le (h : Moves ns held s s') : s.layout ≤ s'.layout := by
  induction h with
  | refl => exact le_refl s.layout
  | tail _ h ih => exact ih.trans h.layout_le

theorem Moves.config_eq (h : Moves ns held s s') : s.pass.config = s'.pass.config := by
  induction h with
  | refl => rfl
  | tail _ h ih => exact ih.trans h.config_eq

theorem Moves.le (h : Moves ns (fun id => s.pass.contains id = true) s s') : s ≤ s' := by
  refine ⟨h.workspace_le, h.layout_le, h.config_eq, fun id F hF => ?_⟩
  have hid : s.pass.contains id = true := by
    rw [Pass.contains, hF]
    rfl
  rw [h.find? hid, hF]

variable [Zero α] [One α] [Neg α] [Add α] [Mul α]

omit [Zero α] [One α] [Neg α] [Add α] [Mul α] in
theorem extends_of_goes {task : Task (Compilation α) β} (h : ∀ held, Goes M held M task) :
    Extends task :=
  fun s => (h _ s (List.subset_append_right ..) fun _ hid => hid).imp fun _ _ hm => hm.le

omit [Zero α] [One α] [Neg α] [Add α] [Mul α] [Scalar α] in
theorem extends_onWorkspace {task : Task Workspace β} (h : Extends task) :
    Extends (onWorkspace (α := α) task) :=
  h.onPart fun s _ hw => ⟨hw, le_refl s.layout, le_refl s.pass⟩

theorem extends_lower (n : Node α) : Extends (lower n) := extends_of_goes fun _ => goes_lower n

end Compilation

end DisciplinedConvex
