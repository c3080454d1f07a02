import InstanceTree.Group.Placement
import InstanceTree.Proofs.Edit
import InstanceTree.Proofs.Group.Joining

namespace InstanceTree.Joins

open Forest

variable {ctx : Context} {f : Forest} {k : Layout} {p : Option NodeId} {node : SchemaNode}
  {kind : SortKind} {n leader : NodeId} {e : Element} {as gx gy bs : List NodeId}

theorem compare_eq (h : Joins ctx f k p node kind n e as gx gy bs) {m : NodeId}
    (hm : m ∈ gx ++ gy) : f.compare ctx m n = .ok (f.rowOrder k node m n) :=
  h.sound.laid.compare_eq h.built h.sound.keyed h.node_eq h.kind_eq (h.kind?_of_mem hm) h.kind?_eq

theorem scanSpot_eq (h : Joins ctx f k p node kind n e as gx gy bs) {past ms : List NodeId}
    (hgx : gx = past ++ ms) {fuel : Nat} (hfuel : (ms ++ (gy ++ bs)).length ≤ fuel)
    (last : NodeId) :
    f.scanSpot ctx e.schema n fuel last (ms ++ (gy ++ bs)).head? =
      .ok (gy.head?.elim (.after (ms.getLast?.getD last)) .before) := by
  induction ms generalizing past fuel last with
  | nil =>
    cases gy with
    | cons m gy =>
      obtain ⟨fuel, rfl⟩ : ∃ j, fuel = j + 1 := ⟨fuel - 1, by simp at hfuel; omega⟩
      obtain ⟨e', he', hschema⟩ := get?_of_kind? (h.kind?_of_mem (m := m) (by simp))
      simp only [List.nil_append, List.cons_append, List.head?_cons, scanSpot,
        element_of_get? he', ok_bind, hschema, ne_eq, not_true_eq_false, if_false,
        h.compare_eq (m := m) (by simp), h.behind m (by simp)]
      rfl
    | nil =>
      cases bs with
      | nil => cases fuel <;> rfl
      | cons b bs =>
        obtain ⟨fuel, rfl⟩ : ∃ j, fuel = j + 1 := ⟨fuel - 1, by simp at hfuel; omega⟩
        obtain ⟨e', he', -⟩ := h.sound.laid.exists_of_mem (p := p) (n := b) (by simp [h.split])
        have hschema : e'.schema ≠ e.schema := by
          have hb := h.together.after b (by simp)
          simpa [isOf_of_get? he'] using hb
        simp only [List.nil_append, List.head?_cons, scanSpot, element_of_get? he', ok_bind,
          if_pos hschema]
        rfl
  | cons m ms ih =>
    obtain ⟨fuel, rfl⟩ : ∃ j, fuel = j + 1 := ⟨fuel - 1, by simp at hfuel; omega⟩
    have hm : m ∈ gx ++ gy := by simp [hgx]
    obtain ⟨e', he', -, -, -, hnext⟩ := h.sound.laid.links p (as ++ past) m (ms ++ (gy ++ bs))
      (by simp [h.split, hgx])
    have hschema : e'.schema = e.schema := by
      simpa [isOf_of_get? he'] using h.together.within m hm
    have hpast : gx = (past ++ [m]) ++ ms := by simp [hgx]
    have hfuel' : (ms ++ (gy ++ bs)).length ≤ fuel := by simpa using hfuel
    have hrest := ih hpast hfuel' m
    simp only [List.cons_append, List.head?_cons, scanSpot, element_of_get? he', ok_bind, hschema,
      ne_eq, not_true_eq_false, if_false, h.compare_eq hm, hnext, List.getLast?_cons,
      Option.getD_some]
    have hle := h.ahead m (by simp [hgx])
    cases ho : f.rowOrder k node m n with
    | gt => exact absurd ho hle
    | lt => exact hrest
    | eq => exact hrest

theorem insertByScan_eq (h : Joins ctx f k p node kind n e as gx gy bs)
    (hleader : (gx ++ gy).head? = some leader) :
    (insertByScan ctx leader n).perform f =
      .ok (.ok (), f.placed e.schema p (as ++ gx).getLast? n (gy ++ bs).head?) := by
  obtain ⟨el, hel, hschema⟩ :=
    get?_of_kind? (h.kind?_of_mem (m := leader) (List.mem_of_head? hleader))
  have hlen : (gx ++ (gy ++ bs)).length ≤ f.steps := by
    have hle := h.sound.laid.length_le p
    simp only [h.split, List.length_append] at hle ⊢
    simp only [steps]
    omega
  have hhead : (gx ++ (gy ++ bs)).head? = some leader := by
    rw [← List.append_assoc, List.head?_append, hleader]
    rfl
  have hspot := h.scanSpot_eq (List.nil_append gx).symm hlen leader
  rw [hhead] at hspot
  rw [insertByScan, Edit.perform_change, schemaOf_of_get? hel, ok_bind, hschema, hspot, ok_bind]
  cases gy with
  | cons m gy =>
    simp only [List.head?_cons, Option.elim_some, spliceAt,
      h.sound.laid.spliceBefore_eq h.split rfl h.lives h.loose, ok_bind]
  | nil =>
    rcases List.eq_nil_or_concat gx with rfl | ⟨gx, m, rfl⟩
    · cases hleader
    · have hlast : (as ++ gx.concat m).getLast? = some m := by simp [← List.append_assoc]
      simp only [List.head?_nil, Option.elim_none, spliceAt, List.getLast?_concat,
        List.concat_eq_append, Option.getD_some]
      rw [List.concat_eq_append] at h hlast
      simp only [h.sound.laid.spliceAfter_eq h.split hlast h.lives h.loose, ok_bind]

end InstanceTree.Joins
