import InstanceTree.Forest.Metadata
import InstanceTree.Proofs.Operations.Creation

namespace InstanceTree

open Edit Forest

theorem Sound.retouch {ctx : Context} {f : Forest} {k : Layout} (h : Sound ctx f k)
    {g : NodeId → Element → Element} (hg : KeepsPlace g)
    (hanchor : ∀ i e, (g i e).anchor = e.anchor) : Sound ctx (f.retouch g id) k := by
  have hanchorAt : (f.retouch g id).anchorAt = f.anchorAt := by
    funext n
    rw [anchorAt, anchorAt, get?_retouch]
    cases f.get? n with
    | none => rfl
    | some e => simp [hanchor]
  have hcarries : Carries ctx f k (f.retouch g id) k := by
    constructor
    case groups =>
      intro p t node _ _
      refine .inr ⟨by rw [group_retouch hg], fun n _ => ⟨by rw [row_retouch hg], ?_⟩⟩
      rw [hanchorAt]
    case anchors => exact fun n x hx => hanchorAt ▸ hx
    case stays =>
      intro n x p t _ hn
      rwa [group_retouch hg]
  refine h.carry hcarries (h.laid.retouch hg) ?_
  intro n t node hn hnode key hkey
  rw [group_retouch hg]
  exact h.keyed n t node (kind?_retouch hg.schema n ▸ hn) hnode key hkey

namespace Forest

theorem updateMetadata_keeps (ctx : Context) (n : NodeId) (m : List Metadata → List Metadata) :
    Keeps (IsSound ctx) (change (update · n fun e => { e with metadata := m e.metadata })) := by
  intro f hsound
  obtain ⟨k, h, hled⟩ := hsound
  apply Ensures.change
  intro g hg
  obtain ⟨e, he, -⟩ := update_eq_ok.1 hg
  cases (update_eq (element_eq_some.1 he) _).symm.trans hg
  refine ⟨k, h.retouch ?_ fun i e => ?_, hled.of_kind (funext (kind?_retouch fun i e => ?_))⟩
  · constructor
    all_goals
      intro i e
      unfold touch
      split <;> rfl
  all_goals
    unfold touch
    split <;> rfl

theorem addMetadata_keeps (ctx : Context) (n : NodeId) (name value : String) :
    Keeps (IsSound ctx) (addMetadata n name value) := by
  have hadd := updateMetadata_keeps ctx n fun l => l ++ [⟨name, value⟩]
  intro f hf
  unfold addMetadata
  cases isReserved name with
  | true => exact Ensures.guard (fun _ => hf) fun hc => absurd rfl hc
  | false => exact Ensures.guard (fun hc => by cases hc) fun _ => hadd f hf

theorem removeMetadata_keeps (ctx : Context) (n : NodeId) (name : String) :
    Keeps (IsSound ctx) (removeMetadata n name) := by
  intro f hf
  unfold removeMetadata
  apply Ensures.bind_look
  intro e _
  have herase := updateMetadata_keeps ctx n fun l => l.eraseP fun m => m.name = name
  refine Ensures.bind (herase f hf) ?_ ?_
  · intro _ g hg
    exact Ensures.pure hg
  · intro _ g hg
    exact hg

end Forest

end InstanceTree
