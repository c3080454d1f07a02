import InstanceTree.Proofs.Atomicity
import InstanceTree.Proofs.ValuePrecedence

namespace InstanceTree

open Forest

def Schema.Holds (s : Schema) (key : SchemaId) (v : Value) : Prop :=
  ∃ m, s.get key = .ok m ∧ m.kind = .leaf v.type

namespace Forest

/-- What an instance of a sorted schema node is compared by: the value of an instance of a
leaf-list, and the values of all keys of a list instance in their declared order. -/
inductive ComparedBy (ctx : Context) (f : Forest) (node : SchemaNode) (n : NodeId) :
    List Value → Prop where
  | value {type : ValueType} {v : Value} (hkind : node.kind = .leafList type)
      (hvalue : f.value? n = .ok (some v)) (htype : v.type = type) : ComparedBy ctx f node n [v]
  | keys {keys : List SchemaId} {row : List Value} (hkind : node.kind = .list keys)
      (hrow : f.keyRow ctx n = .ok row)
      (hholds : List.Forall₂ ctx.schema.Holds keys row) :
      ComparedBy ctx f node n row

variable {ctx : Context} {f : Forest} {k : Layout} {node : SchemaNode} {t : SchemaId}
  {a b c n : NodeId} {xs ys : List Value}

theorem types_eq_of_holds {s : Schema} {keys : List SchemaId} (hx : List.Forall₂ s.Holds keys xs)
    (hy : List.Forall₂ s.Holds keys ys) : xs.map Value.type = ys.map Value.type := by
  induction hx generalizing ys with
  | nil =>
    cases hy
    rfl
  | cons hx hxs ih =>
    cases hy with
    | cons hy hys =>
      obtain ⟨m, hm, hx⟩ := hx
      obtain ⟨m', hm', hy⟩ := hy
      cases hm.symm.trans hm'
      rw [List.map_cons, List.map_cons, ih hys, SchemaKind.leaf.inj (hx.symm.trans hy)]

theorem ComparedBy.types_eq (hx : ComparedBy ctx f node a xs) (hy : ComparedBy ctx f node b ys) :
    xs.map Value.type = ys.map Value.type := by
  cases hx with
  | value hkind hvalue htype =>
    cases hy with
    | value hkind' hvalue' htype' =>
      cases hkind.symm.trans hkind'
      rw [List.map_singleton, List.map_singleton, htype, htype']
    | keys hkind' => cases hkind.symm.trans hkind'
  | keys hkind hrow hholds =>
    cases hy with
    | value hkind' => cases hkind.symm.trans hkind'
    | keys hkind' hrow' hholds' =>
      cases hkind.symm.trans hkind'
      exact types_eq_of_holds hholds hholds'

theorem forall₂_filterMap {keys : List SchemaId} {value : SchemaId → Option Value}
    {R : SchemaId → Value → Prop} (h : ∀ key ∈ keys, ∃ v, value key = some v ∧ R key v) :
    List.Forall₂ R keys (keys.filterMap value) := by
  induction keys with
  | nil => exact .nil
  | cons key keys ih =>
    obtain ⟨v, hv, hR⟩ := h key List.mem_cons_self
    rw [List.filterMap_cons_some hv]
    exact .cons hR (ih fun key' hkey' => h key' (List.mem_cons_of_mem _ hkey'))

end Forest

theorem Laid.comparedBy_row {ctx : Context} {f : Forest} {k : Layout} {node : SchemaNode}
    {t : SchemaId} {n : NodeId} (h : Laid ctx.schema f k) (hs : ctx.schema.Built)
    (hkeyed : Keyed ctx.schema f k) (hnode : ctx.schema.nodes[t]? = some node)
    (hsorted : node.KeptSorted) (hn : f.kind? n = some t) :
    ComparedBy ctx f node n (f.row k node n) := by
  obtain ⟨e, he, -⟩ := get?_of_kind? hn
  obtain ⟨-, ⟨type, hkind⟩ | ⟨key, keys, hkind⟩⟩ := hsorted
  · have hkeys : node.keys = [] := by simp [SchemaNode.keys, hkind]
    have hvalue : node.valueType? = some type := by simp [SchemaNode.valueType?, hkind]
    obtain ⟨v, hv, htype⟩ := h.value_of_type hn hnode hvalue
    rw [row, hv, hkeys]
    exact .value hkind (by rw [value?_of_get? he, hv]) htype
  · have hkeys : node.keys = key :: keys := by simp [SchemaNode.keys, hkind]
    have hvalue := h.no_value hn hnode (by simp [SchemaNode.valueType?, hkind])
    rw [row, hvalue, Option.toList_none, List.nil_append]
    rw [← hkeys] at hkind
    apply ComparedBy.keys hkind
    · simp only [keyRow, schemaNode_eq hn hnode, ok_bind]
      exact h.valuesBelow_eq he node.keys
    · apply forall₂_filterMap
      intro key hkey
      obtain ⟨m, type, hm, hmkind, -⟩ := hs.key hnode hkey
      have htype : m.valueType? = some type := by simp [SchemaNode.valueType?, hmkind]
      obtain ⟨v, hv, rfl⟩ := h.keyValue_eq_some hkeyed hn hnode hkey hm htype
      exact ⟨v, hv, m, Schema.get_eq_ok.2 hm, hmkind⟩

/-- Instances of a sorted schema node, in the forest or not, are told apart and put in order by
their values or key values: `compare` is a total order of these, for rows the lexicographic one. -/
theorem Reachable.compare_lawful {ctx : Context} {f : Forest} (h : Reachable ctx f)
    (hs : ctx.schema.Built) {t : SchemaId} {node : SchemaNode} (hnode : ctx.schema.get t = .ok node)
    (hsorted : node.KeptSorted) :
    (∀ a b, f.schemaOf a = .ok t → f.schemaOf b = .ok t → ∃ sign xs ys,
      f.compare ctx a b = .ok sign ∧ f.compare ctx b a = .ok sign.swap ∧
        ComparedBy ctx f node a xs ∧ ComparedBy ctx f node b ys ∧
          (sign = .eq ↔ xs = ys) ∧ (sign = .lt ↔ List.Lex Value.Before xs ys)) ∧
    ∀ a b c, f.schemaOf a = .ok t → f.schemaOf b = .ok t → f.schemaOf c = .ok t →
      ∀ x y, f.compare ctx a b = .ok x → f.compare ctx b c = .ok y → x.isLE → y.isLE →
        ∃ z, f.compare ctx a c = .ok z ∧ z.isLE := by
  obtain ⟨hsound, -⟩ := isSound_iff.1 (h.isSound hs)
  have hlaid := hsound.laid
  have hnode' := Schema.get_eq_ok.1 hnode
  obtain ⟨kind, hkind⟩ := hsorted.exists_sortKind
  have hcompare : ∀ a b, f.schemaOf a = .ok t → f.schemaOf b = .ok t →
      f.compare ctx a b = .ok (f.rowOrder f.layout node a b) := by
    intro a b ha hb
    exact hlaid.compare_eq hs hsound.keyed hnode' hkind (schemaOf_eq_ok.1 ha) (schemaOf_eq_ok.1 hb)
  constructor
  · intro a b ha hb
    have hx := hlaid.comparedBy_row hs hsound.keyed hnode' hsorted (schemaOf_eq_ok.1 ha)
    have hy := hlaid.comparedBy_row hs hsound.keyed hnode' hsorted (schemaOf_eq_ok.1 hb)
    obtain ⟨hlt, heq⟩ := Value.orderRows_iff (hx.types_eq hy)
    have hswap := hcompare b a hb ha
    rw [rowOrder_swap] at hswap
    exact ⟨_, _, _, hcompare a b ha hb, hswap, hx, hy, heq, hlt⟩
  · intro a b c ha hb hc x y hab hbc hx hy
    cases (hcompare a b ha hb).symm.trans hab
    cases (hcompare b c hb hc).symm.trans hbc
    rw [Ordering.isLE_iff_ne_gt] at hx hy
    exact ⟨_, hcompare a c ha hc, Ordering.isLE_iff_ne_gt.2 (rowOrder_trans hx hy)⟩

/-- Of two entries the one with the lesser number stands before the other, though neither of them
is in the forest. -/
theorem Reachable.compare_lawful_of_entries : ∃ f, Reachable (.ofEntries true) f ∧
    f.schemaOf 0 = .ok 0 ∧ f.schemaOf 2 = .ok 0 ∧ ∃ sign xs ys,
      f.compare (.ofEntries true) 0 2 = .ok sign ∧
        f.compare (.ofEntries true) 2 0 = .ok sign.swap ∧
          (sign = .eq ↔ xs = ys) ∧ (sign = .lt ↔ List.Lex Value.Before xs ys) := by
  have h := ((Reachable.empty : Reachable (.ofEntries true) .empty).step
    (.createList 0 [.uint 7]) rfl).step (.createList 0 [.uint 9]) rfl
  obtain ⟨f, h, hfirst, hsecond⟩ : ∃ f, Reachable (.ofEntries true) f ∧
      f.schemaOf 0 = .ok 0 ∧ f.schemaOf 2 = .ok 0 := ⟨_, h, rfl, rfl⟩
  obtain ⟨sign, xs, ys, hab, hba, -, -, heq, hlt⟩ :=
    (h.compare_lawful Schema.entries_built (t := 0) rfl ⟨rfl, .inr ⟨1, [], rfl⟩⟩).1 0 2 hfirst hsecond
  exact ⟨f, h, hfirst, hsecond, sign, xs, ys, hab, hba, heq, hlt⟩

end InstanceTree
