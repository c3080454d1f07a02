import InstanceTree.Group.Order
import InstanceTree.Proofs.Forest.Layout
import InstanceTree.Proofs.RedBlack.Order
import InstanceTree.Proofs.ValueOrder

namespace InstanceTree

namespace Forest

def valueAt (f : Forest) (n : NodeId) : Option Value :=
  (f.get? n).bind (·.value?)

def keyValue (f : Forest) (k : Layout) (n : NodeId) (key : SchemaId) : Option Value :=
  (f.group k (some n) key).head?.bind f.valueAt

def row (f : Forest) (k : Layout) (node : SchemaNode) (n : NodeId) : List Value :=
  (f.valueAt n).toList ++ node.keys.filterMap (f.keyValue k n)

def rowOrder (f : Forest) (k : Layout) (node : SchemaNode) (a b : NodeId) : Ordering :=
  Value.orderRows (f.row k node a) (f.row k node b)

variable {f : Forest} {k : Layout} {n a b c : NodeId} {e : Element} {t : SchemaId}
  {node : SchemaNode}

theorem value?_of_get? (h : f.get? n = some e) : f.value? n = .ok (f.valueAt n) := by
  simp only [value?, element_of_get? h, ok_bind, valueAt, h]
  rfl

theorem mem_group {p : Option NodeId} : n ∈ f.group k p t ↔ n ∈ k p ∧ f.kind? n = some t := by
  simp [group, isOf]

theorem get?_of_kind? (h : f.kind? n = some t) : ∃ e, f.get? n = some e ∧ e.schema = t :=
  Option.map_eq_some_iff.1 h

theorem schemaOf_eq_ok {t : SchemaId} : f.schemaOf n = .ok t ↔ f.kind? n = some t := by
  simp only [schemaOf, bind_eq_ok, element_eq_some, kind?, Option.map_eq_some_iff]
  constructor
  · intro hsome
    obtain ⟨e, he, ht⟩ := hsome
    cases ht
    exact ⟨e, he, rfl⟩
  · intro hsome
    obtain ⟨e, he, rfl⟩ := hsome
    exact ⟨e, he, rfl⟩

theorem schemaNode_eq {ctx : Context} (ha : f.kind? a = some t)
    (hnode : ctx.schema.nodes[t]? = some node) : f.schemaNode ctx a = .ok node := by
  obtain ⟨e, he, rfl⟩ := get?_of_kind? ha
  simp only [schemaNode, schemaOf_of_get? he, ok_bind]
  exact Schema.get_eq_ok.2 hnode

theorem rowOrder_swap : f.rowOrder k node b a = (f.rowOrder k node a b).swap := by
  have hswap : Value.orderRows (f.row k node b) (f.row k node a) =
      (Value.orderRows (f.row k node a) (f.row k node b)).swap := Std.OrientedCmp.eq_swap
  exact hswap

theorem rowOrder_trans (hab : f.rowOrder k node a b ≠ .gt) (hbc : f.rowOrder k node b c ≠ .gt) :
    f.rowOrder k node a c ≠ .gt := by
  have hab' : (Value.orderRows (f.row k node a) (f.row k node b)).isLE :=
    Ordering.isLE_iff_ne_gt.2 hab
  have hbc' : (Value.orderRows (f.row k node b) (f.row k node c)).isLE :=
    Ordering.isLE_iff_ne_gt.2 hbc
  have hac : (Value.orderRows (f.row k node a) (f.row k node c)).isLE :=
    Std.TransCmp.isLE_trans hab' hbc'
  exact Ordering.isLE_iff_ne_gt.1 hac

section Retouch

variable {g : NodeId → Element → Element} (hg : KeepsPlace g)

include hg

theorem group_retouch : (f.retouch g id).group = f.group := by
  funext k p t
  rw [group, group, isOf_retouch hg.schema]

theorem valueAt_retouch : (f.retouch g id).valueAt = f.valueAt := by
  funext n
  rw [valueAt, valueAt, get?_retouch]
  cases f.get? n with
  | none => rfl
  | some e => simp [Element.value?, hg.content]

theorem row_retouch : (f.retouch g id).row = f.row := by
  funext k node n
  rw [row, row, valueAt_retouch hg]
  congr 2
  funext key
  rw [keyValue, keyValue, group_retouch hg, valueAt_retouch hg]

end Retouch

theorem compareRows_eq {keys : List SchemaId} {v w : SchemaId → Option Value}
    (h : ∀ key ∈ keys, ∃ x y, v key = some x ∧ w key = some y ∧ x.type = y.type) :
    compareRows keys.length (keys.filterMap v) (keys.filterMap w) =
      .ok (Value.orderRows (keys.filterMap v) (keys.filterMap w)) := by
  induction keys with
  | nil => rfl
  | cons key keys ih =>
    obtain ⟨x, y, hx, hy, htype⟩ := h key (by simp)
    have hrest := ih fun key' hkey' => h key' (by simp [hkey'])
    simp only [List.filterMap_cons, hx, hy, List.length_cons, compareRows, Value.compare_eq htype,
      ok_bind]
    have hcons : ∀ xs ys, Value.orderRows (x :: xs) (y :: ys) =
        (x.order y).then (Value.orderRows xs ys) := fun _ _ => List.compareLex_cons_cons
    rw [hcons]
    cases x.order y with
    | lt => rfl
    | gt => rfl
    | eq => exact hrest

end Forest

open Forest

def Keyed (s : Schema) (f : Forest) (k : Layout) : Prop :=
  ∀ (n : NodeId) (t : SchemaId) (node : SchemaNode), f.kind? n = some t →
    s.nodes[t]? = some node → ∀ key ∈ node.keys, f.group k (some n) key ≠ []

theorem SchemaNode.sortKind?_eq_leafList {node : SchemaNode}
    (h : node.sortKind? = some .leafList) : ∃ type, node.kind = .leafList type := by
  unfold sortKind? at h
  split at h <;> simp_all

theorem SchemaNode.sortKind?_eq_list {node : SchemaNode} (h : node.sortKind? = some .list) :
    node.kind = .list node.keys := by
  unfold sortKind? at h
  split at h <;> simp_all [SchemaNode.keys]

theorem Schema.Built.noKey_of_sorted {s : Schema} (hs : s.Built) {t : SchemaId}
    {node : SchemaNode} (hnode : s.nodes[t]? = some node) {kind : SortKind}
    (hkind : node.sortKind? = some kind) : s.NoKey t := by
  apply hs.noKey_of_kind hnode
  intro type htype
  rw [SchemaNode.sortKind?, htype] at hkind
  split at hkind <;> simp_all

namespace Laid

variable {s : Schema} {f : Forest} {k : Layout} {n a b : NodeId} {t : SchemaId}
  {node : SchemaNode}

theorem value_of_type (h : Laid s f k) (hn : f.kind? n = some t) (hnode : s.nodes[t]? = some node)
    {type : ValueType} (htype : node.valueType? = some type) :
    ∃ v, f.valueAt n = some v ∧ v.type = type := by
  obtain ⟨e, he, rfl⟩ := get?_of_kind? hn
  obtain ⟨node', hnode', haccepts⟩ := h.typed n e he
  cases hnode.symm.trans hnode'
  cases hcontent : e.content with
  | term v =>
    rw [hcontent] at haccepts
    refine ⟨v, by simp [valueAt, he, Element.value?, hcontent], ?_⟩
    exact Option.some.inj (haccepts.symm.trans htype)
  | inner c =>
    rw [hcontent] at haccepts
    cases haccepts.symm.trans htype

theorem no_value (h : Laid s f k) (hn : f.kind? n = some t) (hnode : s.nodes[t]? = some node)
    (htype : node.valueType? = none) : f.valueAt n = none := by
  obtain ⟨e, he, rfl⟩ := get?_of_kind? hn
  obtain ⟨node', hnode', haccepts⟩ := h.typed n e he
  cases hnode.symm.trans hnode'
  cases hcontent : e.content with
  | term v =>
    rw [hcontent] at haccepts
    cases haccepts.symm.trans htype
  | inner c => simp [valueAt, he, Element.value?, hcontent]

theorem valuesBelow_eq (h : Laid s f k) {e : Element} (hn : f.get? n = some e)
    (keys : List SchemaId) : f.valuesBelow n keys = .ok (keys.filterMap (f.keyValue k n)) := by
  have halive : f.Alive (some n) := alive_some.2 ⟨e, hn⟩
  induction keys with
  | nil => rfl
  | cons key keys ih =>
    simp only [valuesBelow, h.runStart_eq halive, ok_bind, ih, List.filterMap_cons, keyValue]
    cases hhead : (f.group k (some n) key).head? with
    | none => rfl
    | some c =>
      obtain ⟨e', he', -⟩ := h.exists_of_mem (mem_group.1 (List.mem_of_head? hhead)).1
      simp only [value?_of_get? he', ok_bind, Option.bind_some]
      cases f.valueAt c <;> rfl

theorem keyValue_eq_some (h : Laid s f k) (hkeyed : Keyed s f k)
    (hn : f.kind? n = some t) (hnode : s.nodes[t]? = some node) {key : SchemaId}
    (hkey : key ∈ node.keys) {m : SchemaNode} {type : ValueType} (hm : s.nodes[key]? = some m)
    (htype : m.valueType? = some type) : ∃ v, f.keyValue k n key = some v ∧ v.type = type := by
  have hne := hkeyed n t node hn hnode key hkey
  obtain ⟨c, g, hg⟩ := List.exists_cons_of_ne_nil hne
  have hc : c ∈ f.group k (some n) key := by simp [hg]
  obtain ⟨v, hv, hvtype⟩ := h.value_of_type (mem_group.1 hc).2 hm htype
  exact ⟨v, by simp [keyValue, hg, hv], hvtype⟩

theorem compareBy_eq {ctx : Context} (h : Laid ctx.schema f k) (hs : ctx.schema.Built)
    (hkeyed : Keyed ctx.schema f k) (hnode : ctx.schema.nodes[t]? = some node) {kind : SortKind}
    (hkind : node.sortKind? = some kind) (ha : f.kind? a = some t) (hb : f.kind? b = some t) :
    f.compareBy ctx kind a b = .ok (f.rowOrder k node a b) := by
  obtain ⟨ea, hea, -⟩ := get?_of_kind? ha
  obtain ⟨eb, heb, -⟩ := get?_of_kind? hb
  cases kind with
  | leafList =>
    obtain ⟨type, htype⟩ := SchemaNode.sortKind?_eq_leafList hkind
    have hkeys : node.keys = [] := by simp [SchemaNode.keys, htype]
    have hvalue : node.valueType? = some type := by simp [SchemaNode.valueType?, htype]
    obtain ⟨v, hv, hvtype⟩ := h.value_of_type ha hnode hvalue
    obtain ⟨w, hw, hwtype⟩ := h.value_of_type hb hnode hvalue
    have horder : f.rowOrder k node a b = v.order w := by
      simp only [rowOrder, row, hkeys, hv, hw]
      cases hvw : v.order w <;> simp [Value.orderRows, List.compareLex, hvw]
    simp only [compareBy, value?_of_get? hea, value?_of_get? heb, ok_bind, hv, hw, horder]
    exact Value.compare_eq (hvtype.trans hwtype.symm)
  | list =>
    have hlist := SchemaNode.sortKind?_eq_list hkind
    have hvalue : node.valueType? = none := by simp [SchemaNode.valueType?, hlist]
    simp only [compareBy, keyRow, schemaNode_eq ha hnode, schemaNode_eq hb hnode, ok_bind,
      h.valuesBelow_eq hea, h.valuesBelow_eq heb, rowOrder, row, h.no_value ha hnode hvalue,
      h.no_value hb hnode hvalue, Option.toList_none, List.nil_append]
    apply compareRows_eq
    intro key hkey
    obtain ⟨m, type, hm, hmkind, -⟩ := hs.key hnode hkey
    have hmtype : m.valueType? = some type := by simp [SchemaNode.valueType?, hmkind]
    obtain ⟨v, hv, hvtype⟩ := h.keyValue_eq_some hkeyed ha hnode hkey hm hmtype
    obtain ⟨w, hw, hwtype⟩ := h.keyValue_eq_some hkeyed hb hnode hkey hm hmtype
    exact ⟨v, w, hv, hw, hvtype.trans hwtype.symm⟩

theorem compare_eq {ctx : Context} (h : Laid ctx.schema f k) (hs : ctx.schema.Built)
    (hkeyed : Keyed ctx.schema f k) (hnode : ctx.schema.nodes[t]? = some node) {kind : SortKind}
    (hkind : node.sortKind? = some kind) (ha : f.kind? a = some t) (hb : f.kind? b = some t) :
    f.compare ctx a b = .ok (f.rowOrder k node a b) := by
  obtain ⟨ea, hea, hta⟩ := get?_of_kind? ha
  obtain ⟨eb, heb, htb⟩ := get?_of_kind? hb
  simp only [Forest.compare, schemaOf_of_get? hea, schemaOf_of_get? heb, hta, htb, ok_bind,
    schemaNode_eq ha hnode, hkind, h.compareBy_eq hs hkeyed hnode hkind ha hb]
  exact if_neg (not_not_intro rfl)

theorem sorts {ctx : Context} (h : Laid ctx.schema f k) (hs : ctx.schema.Built)
    (hkeyed : Keyed ctx.schema f k) (hnode : ctx.schema.nodes[t]? = some node) {kind : SortKind}
    (hkind : node.sortKind? = some kind) :
    RedBlack.Comparator.Sorts (f.compareBy ctx kind) (f.rowOrder k node)
      fun n => f.kind? n = some t :=
  ⟨fun ha hb => h.compareBy_eq hs hkeyed hnode hkind ha hb, fun _ _ => rowOrder_swap,
    fun _ _ _ => rowOrder_trans⟩

end Laid

end InstanceTree
