import InstanceTree.Proofs.Document.Import

namespace InstanceTree

open Forest

def SchemaNode.isSingle (node : SchemaNode) : Bool :=
  match node.kind with
  | .leaf _ => true
  | .container => true
  | _ => false

def Grove.plain (s : Schema) (a : Grove) : Grove :=
  a.filter fun group => (s.nodes[group.1]?).all (!·.isKey)

/-- Instances of a schema node as a document can have them: there is room for them, and they are in
order. -/
structure Context.Orderly (ctx : Context) (node : SchemaNode) (xs : List Tree) : Prop where
  nonempty : xs ≠ []
  room : ctx.hasRoom node xs.length = true
  arranged : node.arrange xs = xs
  single : node.isSingle = true → xs.length = 1

mutual

/-- An instance of `t` holds what the schema asks for: a value of its type, or keys in front of
others. -/
def Tree.Fits (ctx : Context) (t : SchemaId) : Tree → Prop
  | .node (some v) below => below = [] ∧
    ∃ node, ctx.schema.nodes[t]? = some node ∧ node.valueType? = some v.type
  | .node none below => Grove.Fits ctx (some t) below ∧
    ∃ node values, ctx.schema.nodes[t]? = some node ∧ node.valueType? = none ∧
      node.keys.length = values.length ∧
        below = keyLeaves node.keys values ++ Grove.plain ctx.schema below

def Tree.FitAll (ctx : Context) (t : SchemaId) : List Tree → Prop
  | [] => True
  | x :: xs => Tree.Fits ctx t x ∧ Tree.FitAll ctx t xs

def Grove.Fits (ctx : Context) (q : Option SchemaId) : List (SchemaId × List Tree) → Prop
  | [] => True
  | (t, xs) :: rest => t ∉ rest.map Prod.fst ∧
    (∃ node, ctx.schema.nodes[t]? = some node ∧ node.parent = q ∧ ctx.Orderly node xs) ∧
      Tree.FitAll ctx t xs ∧ Grove.Fits ctx q rest

end

namespace Forest

/-- A parent that stands in a tree with its root at the top, or the top itself. -/
inductive Rooted (f : Forest) : Option NodeId → Prop
  | top : Rooted f none
  | child {p : Option NodeId} {ns : List NodeId} {n : NodeId} :
      Rooted f p → f.children p = .ok ns → n ∈ ns → Rooted f (some n)

/-- Nowhere below the top there are two sibling leaves or containers of one schema node. -/
def Singular (ctx : Context) (f : Forest) : Prop :=
  ∀ p ns, f.Rooted p → f.children p = .ok ns → ∀ t node, ctx.schema.nodes[t]? = some node →
    node.isSingle = true → (ns.filter (f.isOf t)).length ≤ 1

variable {ctx : Context} {f : Forest} {p : Option NodeId} {t : SchemaId} {node : SchemaNode}
  {n : NodeId} {ns cs rest : List NodeId} {xs : List Tree} {a b : Grove}

theorem Bears.cut (ha : Bears f (cs ++ rest) a) (hb : Bears f cs b)
    (hrest : ∀ t ∈ b.map Prod.fst, ∀ m ∈ rest, f.isOf t m = false) :
    ∃ c, a = b ++ c ∧ Bears f rest c := by
  induction b generalizing cs a with
  | nil =>
    cases hb
    exact ⟨a, rfl, ha⟩
  | cons group b ih =>
    obtain ⟨t, xs⟩ := group
    obtain ⟨ms, cs, rfl, hne, hother, hxs, hb⟩ := hb
    obtain ⟨m, us, rfl⟩ := List.exists_cons_of_ne_nil hne
    cases a with
    | nil => cases ha
    | cons group a =>
      obtain ⟨u, ys⟩ := group
      obtain ⟨ms', ns, heq, hne', hother', hys, ha⟩ := ha
      obtain ⟨m', us', rfl⟩ := List.exists_cons_of_ne_nil hne'
      rw [List.append_assoc] at heq
      obtain ⟨rfl, -⟩ := List.cons.inj heq
      cases (hxs.kind_eq m (by simp)).symm.trans (hys.kind_eq m (by simp))
      have hin : ∀ {l zs}, DepictsAll f t l zs → ∀ m ∈ l, f.isOf t m = true :=
        fun h m hm => by simp [h.isOf_eq m hm]
      have hout : ∀ m ∈ cs ++ rest, ¬f.isOf t m = true := by
        intro m hm
        rcases List.mem_append.1 hm with hm | hm
        · simp [hother m hm]
        · simp [hrest t (by simp) m hm]
      obtain ⟨hus, rfl⟩ := append_inj_of_forall heq (hin hxs) hout (hin hys)
        (by simpa using hother')
      rw [← hus] at hys
      obtain ⟨c, rfl, hc⟩ := ih ha hb fun t' ht' => hrest t' (by simp [ht'])
      exact ⟨c, by rw [DepictsAll.unique xs hxs hys]; rfl, hc⟩

theorem DepictsAll.pairwise (hxs : DepictsAll f t ns xs)
    (h : ns.Pairwise fun a b => f.rowOrder f.layout node a b ≠ .gt) :
    xs.Pairwise fun x y => node.mayPrecede x y = true := by
  induction ns generalizing xs with
  | nil =>
    cases xs with
    | nil => exact .nil
    | cons x xs => exact hxs.elim
  | cons n ns ih =>
    cases xs with
    | nil => exact hxs.elim
    | cons x xs =>
      obtain ⟨-, hx, hxs⟩ := hxs
      obtain ⟨hn, hns⟩ := List.pairwise_cons.1 h
      refine List.pairwise_cons.2 ⟨fun y hy => ?_, ih hxs hns⟩
      obtain ⟨m, hm, -, hdepicts⟩ := hxs.exists_of_mem hy
      have hle := hn m hm
      rw [rowOrder, row_eq hx, row_eq hdepicts] at hle
      exact Ordering.isLE_iff_ne_gt.2 hle

end Forest

theorem Laid.type_of_value {s : Schema} {f : Forest} {k : Layout} {n : NodeId} {t : SchemaId}
    {v : Value} (h : Laid s f k) (hn : f.kind? n = some t) (hv : f.valueAt n = some v) :
    ∃ node, s.nodes[t]? = some node ∧ node.valueType? = some v.type := by
  obtain ⟨e, he, rfl⟩ := get?_of_kind? hn
  obtain ⟨node, hnode, -⟩ := h.typed n e he
  cases htype : node.valueType? with
  | none => cases hv.symm.trans (h.no_value hn hnode htype)
  | some type =>
    obtain ⟨w, hw, rfl⟩ := h.value_of_type hn hnode htype
    cases hv.symm.trans hw
    exact ⟨node, hnode, htype⟩

section Sound

variable {ctx : Context} {f : Forest} {p : Option NodeId} {n : NodeId} {t : SchemaId}
  {node : SchemaNode} (h : Sound ctx f f.layout) (hled : KeyLed ctx.schema f f.layout)
  (hs : ctx.schema.Built)

include h

theorem Forest.Rooted.mem (hp : f.Rooted p) (hn : n ∈ f.layout p) : f.Rooted (some n) :=
  .child hp (h.laid.children_eq (h.laid.alive_of_mem hn)) hn

include hled hs in
/-- Key leaves come first below a list instance. -/
theorem Sound.exists_keyLeaves (hn : f.kind? n = some t)
    (hnode : ctx.schema.nodes[t]? = some node) {a : Grove} (ha : Bears f (f.layout (some n)) a) :
    ∃ values, node.keys.length = values.length ∧
      a = keyLeaves node.keys values ++ Grove.plain ctx.schema a := by
  obtain ⟨cs, rest, hlayout, hcs, hrest⟩ := hled (some n)
  rw [keysBelow_eq hn hnode] at hcs
  have hvalue : ∀ c ∈ cs, (f.valueAt c).isSome := by
    intro c hc
    have hmem := List.mem_map_of_mem (f := f.kind?) hc
    rw [hcs] at hmem
    obtain ⟨key, hkey, hkind⟩ := List.mem_map.1 hmem
    obtain ⟨m, type, hm, hleaf, -⟩ := hs.key hnode hkey
    have htype : m.valueType? = some type := by simp [SchemaNode.valueType?, hleaf]
    obtain ⟨v, hv, -⟩ := h.laid.value_of_type hkind.symm hm htype
    simp [hv]
  have hvalues : cs.map f.valueAt = (cs.filterMap f.valueAt).map some := by
    clear hlayout hcs
    induction cs with
    | nil => rfl
    | cons c cs ih =>
      obtain ⟨v, hv⟩ := Option.isSome_iff_exists.1 (hvalue c List.mem_cons_self)
      rw [List.map_cons, ih fun m hm => hvalue m (List.mem_cons_of_mem _ hm), List.filterMap_cons,
        hv, List.map_cons]
  have hleaves := bears_keyLeaves hcs hvalues (hs.keys_nodup hnode) fun c _ v hv =>
    h.laid.layout_of_value hv
  have hlen : node.keys.length = (cs.filterMap f.valueAt).length := by
    have hkeys := congrArg List.length hcs
    have hlens := congrArg List.length hvalues
    simp only [List.length_map] at hkeys hlens
    exact hkeys.symm.trans hlens
  rw [hlayout] at ha
  obtain ⟨b, rfl, hb⟩ := ha.cut hleaves fun key hkey m hm => by
    simp only [isOf, decide_eq_false_iff_not]
    exact fun hkind => hrest m hm key hkind _ _ hnode (keyLeaves_fst hkey)
  refine ⟨_, hlen, ?_⟩
  have hkeys : Grove.plain ctx.schema (keyLeaves node.keys (cs.filterMap f.valueAt)) = [] := by
    refine List.filter_eq_nil_iff.2 fun group hgroup => ?_
    obtain ⟨m, type, hm, -, -, hkey⟩ := hs.key hnode
      (keyLeaves_fst (List.mem_map_of_mem (f := Prod.fst) hgroup))
    simp [hm, hkey]
  have hothers : Grove.plain ctx.schema b = b := by
    refine List.filter_eq_self.2 fun group hgroup => ?_
    obtain ⟨m, hm, hkind⟩ := hb.exists_of_kind (List.mem_map_of_mem (f := Prod.fst) hgroup)
    obtain ⟨node', hnode', -⟩ := h.laid.node_of_mem (p := some n) (by simp [hlayout, hm]) hkind
    simp [hnode', (hs.noKey_iff hnode').1 (hrest m hm _ hkind)]
  rw [Grove.plain, List.filter_append, ← Grove.plain, ← Grove.plain, hkeys, hothers,
    List.nil_append]

/-- The instances of a schema node below a parent are in order. -/
theorem Sound.orderly (hone : f.Singular ctx) (hp : f.Rooted p) {ms : List NodeId}
    (hms : f.group f.layout p t = ms) (hne : ms ≠ [])
    (hnode : ctx.schema.nodes[t]? = some node) {xs : List Tree} (hxs : DepictsAll f t ms xs) :
    ctx.Orderly node xs := by
  subst hms
  have hlen := hxs.length_eq
  constructor
  case nonempty =>
    rintro rfl
    exact hne (List.length_eq_zero_iff.1 hlen)
  case room =>
    rw [← hlen]
    exact h.hasRoom hnode p
  case arranged =>
    unfold SchemaNode.arrange
    split
    · next hsorted =>
      exact List.mergeSort_of_pairwise (hxs.pairwise (h.ascending p t node hnode hsorted))
    · rfl
  case single =>
    intro hsingle
    obtain ⟨m, us, hcons⟩ := List.exists_cons_of_ne_nil hne
    have hm : m ∈ f.layout p := (mem_group.1 (hcons ▸ List.mem_cons_self)).1
    have hle := hone p _ hp (h.laid.children_eq (h.laid.alive_of_mem hm)) t node hnode hsingle
    have hpos := List.length_pos_of_ne_nil hne
    rw [← hlen]
    exact Nat.le_antisymm hle hpos

end Sound

namespace Forest

variable {ctx : Context} {f : Forest}

mutual

/-- What an element below the top holds is what the schema asks for. -/
theorem Depicts.fits (h : Sound ctx f f.layout) (hled : KeyLed ctx.schema f f.layout)
    (hs : ctx.schema.Built) (hone : f.Singular ctx) : (x : Tree) → ∀ {n : NodeId} {t : SchemaId},
    f.kind? n = some t → f.Rooted (some n) → Depicts f n x → x.Fits ctx t
  | .node (some v) below, n, t, hn, _, ⟨hv, hbelow⟩ => by
    rw [h.laid.layout_of_value hv] at hbelow
    exact ⟨bears_nil.1 hbelow, h.laid.type_of_value hn hv⟩
  | .node none below, n, t, hn, hroot, ⟨hv, hbelow⟩ => by
    obtain ⟨e, he, rfl⟩ := get?_of_kind? hn
    obtain ⟨node, hnode, -⟩ := h.laid.typed n e he
    obtain ⟨values, hlen, heq⟩ := h.exists_keyLeaves hled hs hn hnode hbelow
    have hfits := Bears.fits h hled hs hone below hroot (List.nil_append _).symm nofun hbelow
    rw [Option.bind_some, hn] at hfits
    refine ⟨hfits, node, values, hnode, ?_, hlen, heq⟩
    cases htype : node.valueType? with
    | none => rfl
    | some type =>
      obtain ⟨v, hv', -⟩ := h.laid.value_of_type hn hnode htype
      cases hv.symm.trans hv'

theorem DepictsAll.fitAll (h : Sound ctx f f.layout) (hled : KeyLed ctx.schema f f.layout)
    (hs : ctx.schema.Built) (hone : f.Singular ctx) : (xs : List Tree) →
    ∀ {ns : List NodeId} {t : SchemaId}, (∀ n ∈ ns, f.Rooted (some n)) → DepictsAll f t ns xs →
      Tree.FitAll ctx t xs
  | [], _, _, _, _ => trivial
  | x :: xs, _ :: _, _, hroot, ⟨hn, hx, hxs⟩ =>
    ⟨Depicts.fits h hled hs hone x hn (hroot _ List.mem_cons_self) hx,
      DepictsAll.fitAll h hled hs hone xs (fun m hm => hroot m (List.mem_cons_of_mem _ hm)) hxs⟩

theorem Bears.fits (h : Sound ctx f f.layout) (hled : KeyLed ctx.schema f f.layout)
    (hs : ctx.schema.Built) (hone : f.Singular ctx) : (a : Grove) → ∀ {p : Option NodeId}
    {front ns : List NodeId}, f.Rooted p → f.layout p = front ++ ns →
      (∀ t ∈ a.map Prod.fst, ∀ m ∈ front, f.isOf t m = false) → Bears f ns a →
        Grove.Fits ctx (p.bind f.kind?) a
  | [], _, _, _, _, _, _, _ => trivial
  | (t, xs) :: rest, p, front, _, hp, hlayout, hfront, ⟨ms, ns, heq, hne, hother, hxs, hrest⟩ => by
    subst heq
    have hnew := hrest.not_mem hother
    have hroot : ∀ m ∈ ms, f.Rooted (some m) := fun m hm =>
      hp.mem h (by simp [hlayout, hm])
    have hgroup : f.group f.layout p t = ms := by
      rw [group, hlayout]
      exact hxs.filter_between (hfront t List.mem_cons_self) hother
    obtain ⟨m, hm⟩ := List.exists_mem_of_ne_nil _ hne
    obtain ⟨node, hnode, hparent⟩ := h.laid.node_of_mem (p := p) (by simp [hlayout, hm])
      (hxs.kind_eq m hm)
    refine ⟨hnew, ⟨node, hnode, hparent, h.orderly hone hp hgroup hne hnode hxs⟩,
      DepictsAll.fitAll h hled hs hone xs hroot hxs,
      Bears.fits h hled hs hone rest hp (hlayout.trans (List.append_assoc ..).symm)
        (hxs.before hfront hnew) hrest⟩

end

end Forest

end InstanceTree
