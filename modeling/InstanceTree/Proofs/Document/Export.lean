import InstanceTree.Document.Export
import InstanceTree.Proofs.Document.Trees
import InstanceTree.Proofs.SchemaChildren

namespace InstanceTree

open Forest

/-- What a document has for the instances of a schema node: an array if there may be many of them,
and otherwise the last one. -/
def SchemaNode.gather (node : SchemaNode) (items : List Json) : Json :=
  match node.kind with
  | .leafList _ => .arr items
  | .list _ => .arr items
  | _ => items.getLastD .null

section

variable [ByteCodec]

mutual

def Tree.toJson (s : Schema) : Tree → Json
  | .node (some v) _ => v.toJson
  | .node none below => .obj (Grove.members s below)

def Tree.items (s : Schema) : List Tree → List Json
  | [] => []
  | x :: xs => x.toJson s :: Tree.items s xs

/-- The members of an object that some siblings make up: one for each schema node. -/
def Grove.members (s : Schema) : Grove → Json.Members
  | [] => []
  | (t, xs) :: rest => match s.nodes[t]? with
    | some node => (node.name, node.gather (Tree.items s xs)) :: Grove.members s rest
    | none => Grove.members s rest

end

theorem Tree.items_eq (s : Schema) (xs : List Tree) : Tree.items s xs = xs.map (Tree.toJson s) := by
  induction xs with
  | nil => rfl
  | cons x xs ih => rw [Tree.items, ih, List.map_cons]

namespace Grove

variable {s : Schema} {t : SchemaId} {node : SchemaNode} {xs : List Tree} {a b : Grove}

theorem members_cons (hnode : s.nodes[t]? = some node) :
    members s ((t, xs) :: a) = (node.name, node.gather (Tree.items s xs)) :: members s a := by
  simp only [members, hnode]

theorem members_append : members s (a ++ b) = members s a ++ members s b := by
  induction a with
  | nil => rfl
  | cons group a ih =>
    obtain ⟨t, xs⟩ := group
    simp only [List.cons_append, members, ih]
    split <;> rfl

end Grove

end

namespace Json.Members

variable {ms : Json.Members} {name : String} {v w : Json}

theorem get?_append_absent (h : ms.get? name = none) (ms' : Json.Members) :
    (ms ++ ms').get? name = ms'.get? name := by
  induction ms with
  | nil => rfl
  | cons m rest ih =>
    obtain ⟨n, u⟩ := m
    simp only [get?] at h
    split at h
    · cases h
    · next hne =>
      simp only [List.cons_append, get?, if_neg hne]
      exact ih h

theorem set_append_absent (h : ms.get? name = none) (ms' : Json.Members) :
    (ms ++ ms').set name v = ms ++ ms'.set name v := by
  induction ms with
  | nil => rfl
  | cons m rest ih =>
    obtain ⟨n, u⟩ := m
    simp only [get?] at h
    split at h
    · cases h
    · next hne =>
      simp only [List.cons_append, set, if_neg hne]
      rw [ih h]

theorem set_absent (h : ms.get? name = none) : ms.set name v = ms ++ [(name, v)] := by
  simpa [set] using set_append_absent (v := v) h []

theorem set_last (h : ms.get? name = none) :
    (ms ++ [(name, w)]).set name v = ms ++ [(name, v)] := by
  simpa [set] using set_append_absent (v := v) h [(name, w)]

theorem get?_last (h : ms.get? name = none) : (ms ++ [(name, v)]).get? name = some v := by
  simpa [get?] using get?_append_absent h [(name, v)]

theorem append_absent (h : ms.get? name = none) :
    ms.append name v = ms ++ [(name, Json.arr [v])] := by
  simp only [append, h]
  exact set_absent h

theorem append_last (h : ms.get? name = none) (items : List Json) :
    (ms ++ [(name, Json.arr items)]).append name v = ms ++ [(name, Json.arr (items ++ [v]))] := by
  simp only [append, get?_last h]
  exact set_last h

end Json.Members

namespace Forest

variable {node : SchemaNode} {ms : Json.Members}

theorem addInstance_absent (h : ms.get? node.name = none) (item : Json) :
    addInstance node item ms = ms ++ [(node.name, node.gather [item])] := by
  cases hkind : node.kind with
  | leafList _ => simp only [addInstance, SchemaNode.gather, hkind, Json.Members.append_absent h]
  | list _ => simp only [addInstance, SchemaNode.gather, hkind, Json.Members.append_absent h]
  | leaf _ => simpa [addInstance, SchemaNode.gather, hkind] using Json.Members.set_absent h
  | container => simpa [addInstance, SchemaNode.gather, hkind] using Json.Members.set_absent h

theorem addInstance_last (h : ms.get? node.name = none) (items : List Json) (item : Json) :
    addInstance node item (ms ++ [(node.name, node.gather items)]) =
      ms ++ [(node.name, node.gather (items ++ [item]))] := by
  cases hkind : node.kind with
  | leafList _ => simp only [addInstance, SchemaNode.gather, hkind, Json.Members.append_last h]
  | list _ => simp only [addInstance, SchemaNode.gather, hkind, Json.Members.append_last h]
  | leaf _ => simpa [addInstance, SchemaNode.gather, hkind] using Json.Members.set_last h
  | container => simpa [addInstance, SchemaNode.gather, hkind] using Json.Members.set_last h

theorem addInstances (h : ms.get? node.name = none) {items : List Json} (hne : items ≠ []) :
    items.foldl (fun ms item => addInstance node item ms) ms =
      ms ++ [(node.name, node.gather items)] := by
  obtain ⟨item, items, rfl⟩ := List.exists_cons_of_ne_nil hne
  rw [List.foldl_cons, addInstance_absent h]
  have hrest : ∀ before after : List Json,
      after.foldl (fun ms item => addInstance node item ms)
        (ms ++ [(node.name, node.gather before)]) =
          ms ++ [(node.name, node.gather (before ++ after))] := by
    intro before after
    induction after generalizing before with
    | nil => simp
    | cons item after ih => rw [List.foldl_cons, addInstance_last h, ih, List.append_assoc]; rfl
  exact hrest [item] items

variable [ByteCodec]

def exportInto (ctx : Context) (f : Forest) (depth : Nat) (ms : Json.Members) (n : NodeId) :
    Except Fault Json.Members := do
  let node ← f.schemaNode ctx n
  let item ← match (← f.element n).content with
    | .term v => pure v.toJson
    | .inner _ => exportBelow ctx f depth (some n)
  return addInstance node item ms

theorem exportBelow_succ (ctx : Context) (f : Forest) (depth : Nat) (p : Option NodeId) :
    exportBelow ctx f (depth + 1) p =
      (do return .obj (← (← f.children p).foldlM (exportInto ctx f depth) [])) := rfl

def Exports (ctx : Context) (f : Forest) (depth : Nat) (n : NodeId) (x : Tree) : Prop :=
  Depicts f n x ∧ ∀ t node, f.kind? n = some t → ctx.schema.nodes[t]? = some node →
    ∀ ms, exportInto ctx f depth ms n = .ok (addInstance node (x.toJson ctx.schema) ms)

variable {ctx : Context} {f : Forest} {depth : Nat}

theorem exists_trees {t : SchemaId} {ns : List NodeId}
    (hns : ∀ n ∈ ns, ∃ x, Exports ctx f depth n x) (hkind : ∀ n ∈ ns, f.kind? n = some t) :
    ∃ xs, DepictsAll f t ns xs ∧ ∀ node, ctx.schema.nodes[t]? = some node → ∀ ms,
      ns.foldlM (exportInto ctx f depth) ms =
        .ok ((xs.map (Tree.toJson ctx.schema)).foldl (fun ms item => addInstance node item ms)
          ms) := by
  induction ns with
  | nil => exact ⟨[], trivial, fun _ _ _ => rfl⟩
  | cons n ns ih =>
    obtain ⟨x, hx, hexport⟩ := hns n (by simp)
    obtain ⟨xs, hxs, hrest⟩ := ih (fun m hm => hns m (by simp [hm])) fun m hm =>
      hkind m (by simp [hm])
    have hn := hkind n (by simp)
    refine ⟨x :: xs, ⟨hn, hx, hxs⟩, fun node hnode ms => ?_⟩
    rw [List.foldlM_cons, hexport t node hn hnode, ok_bind, hrest node hnode]
    rfl

/-- Groups of siblings make up a grove, which is exported member by member. -/
theorem exists_grove (hs : ctx.schema.Built) {q : Option SchemaId}
    {gs : List (SchemaId × List NodeId)} (hnd : (gs.map Prod.fst).Nodup)
    (hgs : ∀ t ns, (t, ns) ∈ gs → ns ≠ [] ∧ ∀ n ∈ ns, f.kind? n = some t)
    (hnodes : ∀ t ns, (t, ns) ∈ gs → ∃ node, ctx.schema.nodes[t]? = some node ∧ node.parent = q)
    (hexport : ∀ n ∈ gs.flatMap Prod.snd, ∃ x, Exports ctx f depth n x) :
    ∃ a, Bears f (gs.flatMap Prod.snd) a ∧ ∀ ms : Json.Members,
      (∀ t ns, (t, ns) ∈ gs → ∀ node, ctx.schema.nodes[t]? = some node →
        ms.get? node.name = none) →
      (gs.flatMap Prod.snd).foldlM (exportInto ctx f depth) ms =
        .ok (ms ++ Grove.members ctx.schema a) := by
  induction gs with
  | nil =>
    refine ⟨[], rfl, fun ms _ => ?_⟩
    simp [Grove.members]
    rfl
  | cons group gs ih =>
    obtain ⟨t, ns⟩ := group
    obtain ⟨ht, hnd'⟩ := List.nodup_cons.1 hnd
    obtain ⟨hne, hkind⟩ := hgs t ns (by simp)
    obtain ⟨node, hnode, hparent⟩ := hnodes t ns (by simp)
    obtain ⟨xs, hxs, hfold⟩ := exists_trees (fun n hn => hexport n (by simp [hn])) hkind
    obtain ⟨a, hbears, hrest⟩ := ih hnd'
      (fun t ns hmem => hgs t ns (List.mem_cons_of_mem _ hmem))
      (fun t ns hmem => hnodes t ns (List.mem_cons_of_mem _ hmem))
      fun n hn => hexport n (by rw [List.flatMap_cons]; exact List.mem_append_right _ hn)
    have hother : ∀ m ∈ gs.flatMap Prod.snd, f.isOf t m = false := by
      intro m hm
      obtain ⟨⟨u, us⟩, hmem, hm⟩ := List.mem_flatMap.1 hm
      simp only [isOf, (hgs u us (List.mem_cons_of_mem _ hmem)).2 m hm, Option.some.injEq,
        decide_eq_false_iff_not]
      rintro rfl
      exact ht (List.mem_map.2 ⟨_, hmem, rfl⟩)
    have hxs_ne : xs.map (Tree.toJson ctx.schema) ≠ [] := by
      intro heq
      have hlen := hxs.length_eq
      rw [List.map_eq_nil_iff.1 heq] at hlen
      exact hne (List.length_eq_zero_iff.1 hlen)
    refine ⟨(t, xs) :: a, ⟨ns, _, rfl, hne, hother, hxs, hbears⟩, fun ms hms => ?_⟩
    have hname := hms t ns (by simp) node hnode
    rw [List.flatMap_cons, List.foldlM_append, hfold node hnode, addInstances hname hxs_ne, ok_bind,
      hrest]
    · simp [Grove.members, hnode, Tree.items_eq]
    · intro u us hmem m hm
      -- siblings have different names
      have hname' : node.name ≠ m.name := by
        intro heq
        obtain ⟨m', hm', hparent'⟩ := hnodes u us (List.mem_cons_of_mem _ hmem)
        cases hm.symm.trans hm'
        cases hs.name_inj hnode hm (hparent.trans hparent'.symm) heq
        exact ht (List.mem_map.2 ⟨_, hmem, rfl⟩)
      have hold := hms u us (List.mem_cons_of_mem _ hmem) m hm
      rw [Json.Members.get?_append_absent hold]
      simp [Json.Members.get?, hname']

end Forest

namespace Laid

variable [ByteCodec] {ctx : Context} {f : Forest} {p : Option NodeId}

/-- Every parent in a forest can be exported: its children are a grove, and the document is what
that grove makes up. -/
theorem exists_export (h : Laid ctx.schema f f.layout) (hs : ctx.schema.Built) (hp : f.Alive p) :
    ∃ a, Bears f (f.layout p) a ∧ f.toJson ctx p = .ok (.obj (Grove.members ctx.schema a)) := by
  refine h.descend (M := fun depth p => ∃ a, Bears f (f.layout p) a ∧
    exportBelow ctx f depth p = .ok (.obj (Grove.members ctx.schema a))) hs ?_ hp
  intro depth p hp ih
  have hsome : ∀ n ∈ f.layout p, (f.kind? n).isSome := fun n hn => h.isSome_of_mem hn
  obtain ⟨gs, hgs_eq, hnd, hgs⟩ := exists_groups hsome (h.contiguous p)
  have hmem : ∀ {t ns n}, (t, ns) ∈ gs → n ∈ ns → n ∈ f.layout p := by
    intro t ns n hns hn
    rw [hgs_eq]
    exact List.mem_flatMap.2 ⟨_, hns, hn⟩
  have hexport : ∀ n ∈ gs.flatMap Prod.snd, ∃ x, Exports ctx f depth n x := by
    rw [← hgs_eq]
    intro n hn
    obtain ⟨e, he, -⟩ := h.exists_of_mem hn
    cases hcontent : e.content with
    | term v =>
      have hvalue : f.valueAt n = some v := by simp [valueAt, he, Element.value?, hcontent]
      refine ⟨.leaf v, ⟨hvalue, h.layout_of_value hvalue⟩, fun t node ht hnode ms => ?_⟩
      simp only [exportInto, schemaNode_eq ht hnode, ok_bind, element_of_get? he, hcontent]
      rfl
    | inner c =>
      obtain ⟨a, ha, hexport⟩ := ih n hn
      have hvalue : f.valueAt n = none := by simp [valueAt, he, Element.value?, hcontent]
      refine ⟨.node none a, ⟨hvalue, ha⟩, fun t node ht hnode ms => ?_⟩
      simp only [exportInto, schemaNode_eq ht hnode, ok_bind, element_of_get? he, hcontent, hexport]
      rfl
  have hnodes : ∀ t ns, (t, ns) ∈ gs → ∃ node, ctx.schema.nodes[t]? = some node ∧
      node.parent = p.bind f.kind? := by
    intro t ns hns
    obtain ⟨hne, hkind⟩ := hgs t ns hns
    obtain ⟨n, hn⟩ := List.exists_mem_of_ne_nil _ hne
    exact h.node_of_mem (hmem hns hn) (hkind n hn)
  obtain ⟨a, hbears, hfold⟩ := exists_grove hs hnd hgs hnodes hexport
  refine ⟨a, hgs_eq ▸ hbears, ?_⟩
  rw [exportBelow_succ, h.children_eq hp, ok_bind, hgs_eq, hfold [] (by simp [Json.Members.get?])]
  rfl

theorem toJson_eq (h : Laid ctx.schema f f.layout) (hs : ctx.schema.Built) (hp : f.Alive p)
    {a : Grove} (ha : Bears f (f.layout p) a) :
    f.toJson ctx p = .ok (.obj (Grove.members ctx.schema a)) := by
  obtain ⟨b, hb, hexport⟩ := h.exists_export hs hp
  rwa [Bears.unique a ha hb]

end Laid

end InstanceTree
