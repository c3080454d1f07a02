import InstanceTree.Proofs.Document.Export
import InstanceTree.Proofs.Document.Reading

namespace InstanceTree

open Forest

def Value.mayPrecede (v w : Value) : Bool :=
  match v.compare w with
  | .ok .gt => false
  | _ => true

namespace Schema

variable {s : Schema}

def keyMembers (s : Schema) (keys : List SchemaId) (fields : Json.Members) : Json.Members :=
  keys.filterMap fun key => do
    let node ← s.nodes[key]?
    let v ← s.readKey fields key
    return (node.name, v.toJson)

def keyTuple (s : Schema) (keys : List SchemaId) (fields : Json.Members) : List Value :=
  keys.filterMap (s.readKey fields)

def tupleMayPrecede (count : Nat) (x y : List Value × Json) : Bool :=
  match compareRows count x.1 y.1 with
  | .ok .gt => false
  | _ => true

/-- The normal form of a leaf is its value, and that of a leaf-list has the values in order. -/
def normalFlat (node : SchemaNode) (j : Json) : Json :=
  match node.kind, j with
  | .leaf type, j => match Value.ofJson? type j with
    | some v => v.toJson
    | none => j
  | .leafList type, .arr items =>
    let values := items.filterMap (Value.ofJson? type)
    let values := if node.orderedBy = .system then values.mergeSort Value.mayPrecede else values
    .arr (values.map Value.toJson)
  | _, j => j

mutual

def normalMember (s : Schema) (t : SchemaId) (node : SchemaNode) : Json → Json
  | .obj members => match node.kind with
    | .container => .obj (normalMembers s (some t) members)
    | _ => normalFlat node (.obj members)
  | .arr items => match node.kind with
    | .list keys =>
      let entries := normalEntries s t keys items
      let sorted := node.orderedBy = .system ∧ keys ≠ []
      let entries := if sorted then entries.mergeSort (tupleMayPrecede keys.length) else entries
      .arr (entries.map Prod.snd)
    | _ => normalFlat node (.arr items)
  | j => normalFlat node j

def normalEntries (s : Schema) (t : SchemaId) (keys : List SchemaId) :
    List Json → List (List Value × Json)
  | [] => []
  | .obj fields :: rest =>
    (s.keyTuple keys fields, .obj (s.keyMembers keys fields ++ normalMembers s (some t) fields)) ::
      normalEntries s t keys rest
  | _ :: rest => normalEntries s t keys rest

/-- The normal form of the members of an object below an instance of `q`, or at the top: every
member stays in its place, but keys and empty arrays are dropped. -/
def normalMembers (s : Schema) (q : Option SchemaId) : List (String × Json) → Json.Members
  | [] => []
  | (name, j) :: rest => match s.named q name with
    | none => normalMembers s q rest
    | some c => match s.nodes[c]? with
      | none => normalMembers s q rest
      | some node => if node.isKey then normalMembers s q rest else
        match normalMember s c node j with
        | .arr [] => normalMembers s q rest
        | j' => (name, j') :: normalMembers s q rest

end

def normal (s : Schema) : Json → Json
  | .obj members => .obj (normalMembers s none members)
  | j => j

variable {s : Schema} {t : SchemaId} {node : SchemaNode}

theorem normalMember_container (hkind : node.kind = .container) (members : Json.Members) :
    s.normalMember t node (.obj members) = .obj (normalMembers s (some t) members) := by
  unfold normalMember
  simp only [hkind]

theorem normalMember_list (hkind : node.kind = .list node.keys) (items : List Json) :
    s.normalMember t node (.arr items) =
      .arr ((if node.orderedBy = .system ∧ node.keys ≠ [] then
        (normalEntries s t node.keys items).mergeSort (tupleMayPrecede node.keys.length)
      else normalEntries s t node.keys items).map Prod.snd) := by
  unfold normalMember
  generalize node.keys = keys at hkind ⊢
  simp only [hkind]

theorem normalMember_obj (hkind : node.kind ≠ .container) (members : Json.Members) :
    s.normalMember t node (.obj members) = normalFlat node (.obj members) := by
  unfold normalMember
  cases h : node.kind with
  | container => contradiction
  | _ => rfl

theorem normalMember_arr (hkind : ∀ keys, node.kind ≠ .list keys) (items : List Json) :
    s.normalMember t node (.arr items) = normalFlat node (.arr items) := by
  unfold normalMember
  cases h : node.kind with
  | list keys => cases hkind keys h
  | _ => rfl

end Schema

namespace SchemaNode

variable {node : SchemaNode} {type : ValueType}

theorem sortKind?_leafList (hkind : node.kind = .leafList type) :
    node.sortKind?.isSome ↔ node.orderedBy = .system := by
  unfold sortKind?
  cases node.orderedBy <;> simp [hkind]

theorem sortKind?_list {keys : List SchemaId} (hkind : node.kind = .list keys) :
    node.sortKind?.isSome ↔ node.orderedBy = .system ∧ keys ≠ [] := by
  unfold sortKind?
  cases node.orderedBy <;> cases keys <;> simp [hkind]

theorem arrange_congr {p : Prop} [Decidable p] (hsorted : node.sortKind?.isSome ↔ p)
    (xs : List Tree) :
    node.arrange xs = if p then xs.mergeSort node.mayPrecede else xs := by
  simp only [arrange, hsorted]

end SchemaNode

theorem Value.mayPrecede_eq {v w : Value} (h : v.type = w.type) :
    v.mayPrecede w = (v.order w).isLE := by
  rw [mayPrecede, compare_eq h]
  cases v.order w <;> rfl

theorem Tree.row_leaf {node : SchemaNode} (hkeys : node.keys = []) (v : Value) :
    (Tree.leaf v).row node = [v] := by
  rw [row, hkeys]
  rfl

theorem SchemaNode.mayPrecede_leaf {node : SchemaNode} (hkeys : node.keys = []) (v w : Value) :
    node.mayPrecede (.leaf v) (.leaf w) = (v.order w).isLE := by
  rw [mayPrecede, Tree.row_leaf hkeys, Tree.row_leaf hkeys]
  cases horder : v.order w <;> simp [Value.orderRows, List.compareLex, horder]

theorem SchemaNode.arrange_leaves {node : SchemaNode} {type : ValueType}
    (hkind : node.kind = .leafList type) {vs : List Value} (hvs : ∀ v ∈ vs, v.type = type) :
    node.arrange (vs.map Tree.leaf) =
      (if node.orderedBy = .system then vs.mergeSort Value.mayPrecede else vs).map Tree.leaf := by
  have hkeys : node.keys = [] := by simp [keys, hkind]
  rw [arrange_congr (sortKind?_leafList hkind)]
  split
  · refine (List.map_mergeSort fun v hv w hw => ?_).symm
    rw [mayPrecede_leaf hkeys, Value.mayPrecede_eq ((hvs v hv).trans (hvs w hw).symm)]
  · rfl

theorem filterMap_keyLeaves {keys : List SchemaId} {values : List Value} (hnd : keys.Nodup)
    (hlen : keys.length = values.length) :
    keys.filterMap (keyLeaves keys values).keyValue = values := by
  induction keys generalizing values with
  | nil =>
    cases values with
    | nil => rfl
    | cons v values => cases hlen
  | cons key keys ih =>
    cases values with
    | nil => cases hlen
    | cons v values =>
      obtain ⟨hkey, hnd⟩ := List.nodup_cons.1 hnd
      have hfirst : (keyLeaves (key :: keys) (v :: values)).keyValue key = some v := by
        show ((if key = key then [Tree.leaf v] else _).head?.bind Tree.value) = _
        rw [if_pos rfl]
        rfl
      have hothers : keys.filterMap (keyLeaves (key :: keys) (v :: values)).keyValue =
          keys.filterMap (keyLeaves keys values).keyValue := by
        refine List.filterMap_congr fun key' hkey' => ?_
        show ((if key = key' then [Tree.leaf v] else _).head?.bind Tree.value) = _
        rw [if_neg fun heq : key = key' => hkey (heq ▸ hkey')]
        rfl
      rw [List.filterMap_cons, hfirst, hothers, ih hnd (Nat.succ.inj hlen)]

namespace Context

variable {ctx : Context} {t : SchemaId} {node : SchemaNode}

theorem row_entry (hs : ctx.schema.Built) (hnode : ctx.schema.nodes[t]? = some node)
    {fields : Json.Members} {values : List Value} {below : Grove}
    (hvalues : node.keys.mapM (ctx.schema.readKey fields) = some values)
    (hbelow : ctx.readMembers (some t) fields = some below) :
    (Tree.node none (keyLeaves node.keys values ++ below)).row node =
      ctx.schema.keyTuple node.keys fields := by
  rw [Tree.row_append fun key hkey hmem => ?_, Schema.keyTuple, filterMap_of_mapM hvalues]
  · exact filterMap_keyLeaves (hs.keys_nodup hnode) (mapM_eq_some.1 hvalues).length_eq
  · obtain ⟨m, hm, hnokey, -⟩ := readMembers_fst hs (Schema.isSome_of_node hnode) hbelow hmem
    exact hs.noKey_of_isKey hm hnokey t node hnode hkey

theorem members_keyLeaves (hs : ctx.schema.Built) (hnode : ctx.schema.nodes[t]? = some node)
    {fields : Json.Members} {keys : List SchemaId} {values : List Value}
    (hkeys : ∀ key ∈ keys, key ∈ node.keys)
    (hvalues : keys.mapM (ctx.schema.readKey fields) = some values) :
    Grove.members ctx.schema (keyLeaves keys values) = ctx.schema.keyMembers keys fields := by
  have hread := mapM_eq_some.1 hvalues
  clear hvalues
  induction hread with
  | nil => rfl
  | @cons key v keys values hv _ ih =>
    obtain ⟨m, type, hm, hkind, -⟩ := hs.key hnode (hkeys key List.mem_cons_self)
    have hgather : m.gather (Tree.items ctx.schema [Tree.leaf v]) = v.toJson := by
      simp [SchemaNode.gather, hkind, Tree.items, Tree.leaf, Tree.toJson]
    have hrest := ih fun key' hkey' => hkeys key' (List.mem_cons_of_mem _ hkey')
    rw [keyLeaves, List.zipWith_cons_cons, Grove.members_cons hm, hgather]
    simp only [Schema.keyMembers, List.filterMap_cons, hm, hv, Option.bind_eq_bind,
      Option.bind_some]
    exact congrArg _ hrest

theorem readFlat_eq (hkind : ∀ type, node.kind ≠ .leaf type) {j : Json} {xs : List Tree}
    (h : ctx.readFlat node j = some xs) :
    ∃ type items, node.kind = .leafList type ∧ j = .arr items := by
  unfold readFlat at h
  split at h
  · next type heq => cases hkind type heq
  · next type heq =>
    split at h
    · exact ⟨type, _, heq, rfl⟩
    · cases h
  · cases h

theorem normalFlat_eq {j : Json} {xs : List Tree} (h : ctx.readFlat node j = some xs) :
    Schema.normalFlat node j = node.gather (Tree.items ctx.schema xs) := by
  have hitems : ∀ vs : List Value,
      Tree.items ctx.schema (vs.map Tree.leaf) = vs.map Value.toJson := by
    intro vs
    rw [Tree.items_eq, List.map_map]
    rfl
  cases hkind : node.kind with
  | leaf type =>
    rw [readFlat_leaf hkind, Option.map_eq_some_iff] at h
    obtain ⟨v, hv, rfl⟩ := h
    simp only [Schema.normalFlat, SchemaNode.gather, hkind, hv]
    rfl
  | leafList type =>
    obtain ⟨_, items, heq, rfl⟩ := readFlat_eq (by simp [hkind]) h
    rw [readFlat_items hkind, Option.bind_eq_some_iff] at h
    obtain ⟨vs, hvs, h⟩ := h
    have htypes : ∀ v ∈ vs, v.type = type := by
      intro v hv
      obtain ⟨j, -, hj⟩ := exists_of_mem_mapM hvs hv
      exact Value.type_of_ofJson? hj
    unfold arrange? at h
    split at h
    · cases h
      simp only [Schema.normalFlat, SchemaNode.gather, hkind, filterMap_of_mapM hvs]
      rw [SchemaNode.arrange_leaves hkind htypes, hitems]
    · cases h
  | container =>
    obtain ⟨type, items, heq, -⟩ := readFlat_eq (by simp [hkind]) h
    cases hkind.symm.trans heq
  | list keys =>
    obtain ⟨type, items, heq, -⟩ := readFlat_eq (by simp [hkind]) h
    cases hkind.symm.trans heq

theorem exists_below (hkind : node.kind = .container) {j : Json} {xs : List Tree}
    (h : ctx.readMember t node j = some xs) : ∃ below, xs = [.node none below] := by
  cases j with
  | obj members =>
    rw [readMember_container hkind, Option.bind_eq_some_iff] at h
    obtain ⟨below, -, heq⟩ := h
    cases heq
    exact ⟨below, rfl⟩
  | _ => simp [readMember, readFlat, hkind] at h

theorem gather_eq_nil {j : Json} {xs : List Tree}
    (h : ctx.readMember t node j = some xs) :
    node.gather (Tree.items ctx.schema xs) = .arr [] ↔ xs = [] := by
  have hitem : ∀ x : Tree, x.toJson ctx.schema ≠ .arr [] := by
    rintro ⟨_ | v, below⟩
    · simp [Tree.toJson]
    · rw [Tree.toJson]
      cases v <;> exact nofun
  cases hkind : node.kind with
  | leaf type =>
    rw [readMember_leaf hkind, Option.map_eq_some_iff] at h
    obtain ⟨v, -, rfl⟩ := h
    simpa [SchemaNode.gather, hkind, Tree.items] using hitem (.leaf v)
  | container =>
    obtain ⟨below, rfl⟩ := exists_below hkind h
    simpa [SchemaNode.gather, hkind, Tree.items] using hitem (.node none below)
  | leafList type => simp [SchemaNode.gather, hkind, Tree.items_eq]
  | list keys => simp [SchemaNode.gather, hkind, Tree.items_eq]

section

variable (hs : ctx.schema.Built)

include hs

theorem tuple_of_readEntries (hnode : ctx.schema.nodes[t]? = some node) {items : List Json}
    {ys : List Tree} (h : ctx.readEntries t node.keys items = some ys) :
    ∀ y ∈ ys, ∃ fields, y.row node = ctx.schema.keyTuple node.keys fields ∧
      ∀ key ∈ node.keys, ∃ v, ctx.schema.readKey fields key = some v := by
  induction items generalizing ys with
  | nil =>
    cases h
    simp
  | cons item rest ih =>
    cases item with
    | obj fields =>
      simp only [readEntries, Option.bind_eq_bind, Option.bind_eq_some_iff] at h
      obtain ⟨values, hvalues, below, hbelow, zs, hzs, heq⟩ := h
      cases heq
      intro y hy
      rcases List.mem_cons.1 hy with rfl | hy
      · exact ⟨fields, row_entry hs hnode hvalues hbelow, fun key hkey =>
          Option.isSome_iff_exists.1 (isSome_of_mem_mapM hvalues hkey)⟩
      · exact ih hzs y hy
    | _ => cases h

theorem arrange_entries (hnode : ctx.schema.nodes[t]? = some node)
    (hkind : node.kind = .list node.keys) {items : List Json} {ys : List Tree}
    (h : ctx.readEntries t node.keys items = some ys) :
    (node.arrange ys).map (fun y => (y.row node, y.toJson ctx.schema)) =
      if node.orderedBy = .system ∧ node.keys ≠ [] then
        (ys.map fun y => (y.row node, y.toJson ctx.schema)).mergeSort
          (Schema.tupleMayPrecede node.keys.length)
      else ys.map fun y => (y.row node, y.toJson ctx.schema) := by
  rw [SchemaNode.arrange_congr (SchemaNode.sortKind?_list hkind)]
  split
  · refine List.map_mergeSort fun x hx y hy => ?_
    obtain ⟨fields, hrow, hkeys⟩ := tuple_of_readEntries hs hnode h x hx
    obtain ⟨fields', hrow', hkeys'⟩ := tuple_of_readEntries hs hnode h y hy
    have hcompare : compareRows node.keys.length (ctx.schema.keyTuple node.keys fields)
        (ctx.schema.keyTuple node.keys fields') =
          .ok (Value.orderRows (ctx.schema.keyTuple node.keys fields)
            (ctx.schema.keyTuple node.keys fields')) := compareRows_eq fun key hkey => by
        obtain ⟨v, hv⟩ := hkeys key hkey
        obtain ⟨w, hw⟩ := hkeys' key hkey
        obtain ⟨m, -, hm, hvtype, -⟩ := Schema.readKey_eq_some hv
        obtain ⟨m', -, hm', hwtype, -⟩ := Schema.readKey_eq_some hw
        cases hm.symm.trans hm'
        exact ⟨v, w, hv, hw, Option.some.inj (hvtype.symm.trans hwtype)⟩
    simp only [SchemaNode.mayPrecede, Schema.tupleMayPrecede, hrow, hrow', hcompare]
    cases Value.orderRows (ctx.schema.keyTuple node.keys fields)
      (ctx.schema.keyTuple node.keys fields') <;> rfl
  · rfl

mutual

/-- The normal form of a member is what the instances that are read from it make up. -/
theorem normalMember_eq : (j : Json) → ∀ {t : SchemaId} {node : SchemaNode} {xs : List Tree},
    ctx.schema.nodes[t]? = some node → ctx.readMember t node j = some xs →
      ctx.schema.normalMember t node j = node.gather (Tree.items ctx.schema xs)
  | .obj members, t, node, xs, hnode, h => by
    by_cases hkind : node.kind = .container
    · rw [readMember_container hkind, Option.bind_eq_some_iff] at h
      obtain ⟨below, hbelow, heq⟩ := h
      cases heq
      rw [Schema.normalMember_container hkind,
        normalMembers_eq members (Schema.isSome_of_node hnode) hbelow]
      simp [SchemaNode.gather, hkind, Tree.items, Tree.toJson]
    · rw [readMember_obj hkind] at h
      exact (Schema.normalMember_obj hkind members).trans (normalFlat_eq h)
  | .arr items, t, node, xs, hnode, h => by
    by_cases hkind : node.kind = .list node.keys
    · rw [readMember_list hkind, Option.bind_eq_some_iff] at h
      obtain ⟨ys, hys, h⟩ := h
      unfold arrange? at h
      split at h
      · cases h
        have hgather : node.gather (Tree.items ctx.schema (node.arrange ys)) =
            .arr (((node.arrange ys).map fun y => (y.row node, y.toJson ctx.schema)).map
              Prod.snd) := by
          rw [Tree.items_eq, List.map_map]
          simp only [SchemaNode.gather, hkind]
          rfl
        rw [Schema.normalMember_list hkind, normalEntries_eq items hnode hkind hys, hgather,
          arrange_entries hs hnode hkind hys]
      · cases h
    · have hflat : ∀ keys, node.kind ≠ .list keys := by
        intro keys heq
        exact hkind (by simp [SchemaNode.keys, heq])
      rw [readMember_arr hflat] at h
      exact (Schema.normalMember_arr hflat items).trans (normalFlat_eq h)
  | .null, _, _, _, _, h => normalFlat_eq h
  | .bool _, _, _, _, _, h => normalFlat_eq h
  | .num _, _, _, _, _, h => normalFlat_eq h
  | .str _, _, _, _, _, h => normalFlat_eq h

theorem normalEntries_eq : (items : List Json) → ∀ {t : SchemaId} {node : SchemaNode}
    {ys : List Tree}, ctx.schema.nodes[t]? = some node → node.kind = .list node.keys →
      ctx.readEntries t node.keys items = some ys → ctx.schema.normalEntries t node.keys items =
        ys.map fun y => (y.row node, y.toJson ctx.schema)
  | [], _, _, _, _, _, h => by
    cases h
    rfl
  | .obj fields :: rest, t, node, ys, hnode, hkind, h => by
    simp only [readEntries, Option.bind_eq_bind, Option.bind_eq_some_iff] at h
    obtain ⟨values, hvalues, below, hbelow, zs, hzs, heq⟩ := h
    cases heq
    rw [Schema.normalEntries, normalMembers_eq fields (Schema.isSome_of_node hnode) hbelow,
      normalEntries_eq rest hnode hkind hzs, List.map_cons, row_entry hs hnode hvalues hbelow,
      Tree.toJson, Grove.members_append, members_keyLeaves hs hnode (fun _ => id) hvalues]
  | .null :: _, _, _, _, _, _, h => by cases h
  | .bool _ :: _, _, _, _, _, _, h => by cases h
  | .num _ :: _, _, _, _, _, _, h => by cases h
  | .str _ :: _, _, _, _, _, _, h => by cases h
  | .arr _ :: _, _, _, _, _, _, h => by cases h

theorem normalMembers_eq : (members : List (String × Json)) → ∀ {q : Option SchemaId} {a : Grove},
    (∀ i, q = some i → (ctx.schema.nodes[i]?).isSome) → ctx.readMembers q members = some a →
      ctx.schema.normalMembers q members = Grove.members ctx.schema a
  | [], _, _, _, h => by
    cases h
    rfl
  | (name, j) :: rest, q, a, hq, h => by
    simp only [readMembers, Option.bind_eq_bind, Option.bind_eq_some_iff] at h
    obtain ⟨c, hc, node, hnode, h⟩ := h
    simp only [Schema.normalMembers, hc, hnode]
    split at h
    · next hkey =>
      rw [if_pos hkey]
      exact normalMembers_eq rest hq h
    · next hkey =>
      rw [if_neg hkey]
      simp only [Option.bind_eq_some_iff] at h
      obtain ⟨xs, hxs, b, hb, heq⟩ := h
      cases heq
      obtain ⟨n, hn, -, rfl⟩ := hs.named_eq_some hc hq
      cases hnode.symm.trans hn
      rw [normalMember_eq j hnode hxs, normalMembers_eq rest hq hb]
      have hnil := gather_eq_nil hxs
      split
      · next heq =>
        rw [hnil.1 heq]
        rfl
      · next hne =>
        cases xs with
        | nil => cases hne (hnil.2 rfl)
        | cons x xs => exact (Grove.members_cons hnode).symm

end

end

end Context

end InstanceTree
