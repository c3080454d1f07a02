import InstanceTree.Forest.Create
import InstanceTree.Proofs.Forest.Allocation
import InstanceTree.Proofs.Operations.Placement

namespace InstanceTree

open Edit Forest

/-- The forest `f` has grown out of `f₀` by an instance `list` of `t` and by children `cs` of it,
which are instances of `keys` with the values `vs`. -/
structure Grown (s : Schema) (f₀ : Forest) (k₀ : Layout) (f : Forest) (k : Layout) (list : NodeId)
    (t : SchemaId) (cs : List NodeId) (keys : List SchemaId) (vs : List Value) : Prop where
  laid : Laid s f k
  payload_old : ∀ i, (f₀.kind? i).isSome → f.payload i = f₀.payload i
  anchors : f.anchorAt = f₀.anchorAt
  list_new : f₀.kind? list = none
  list_kind : f.kind? list = some t
  layout : k = Function.update k₀ (some list) cs
  members : cs.map f.kind? = keys.map some
  values : cs.map f.valueAt = vs.map some
  new : ∀ i, f₀.kind? i = none → (f.kind? i).isSome → i = list ∨ i ∈ cs
  keys_new : ∀ i ∈ cs, f₀.kind? i = none
  draws : Draws f₀ (list :: cs) f

namespace Forest.Gains

variable {f g : Forest} {n i : NodeId} {e : Element}

theorem payload_old (h : f.Gains g n e) (hi : i ≠ n) : g.payload i = f.payload i := by
  rw [payload, h.old i hi, payload]

theorem valueAt_new (h : f.Gains g n e) : g.valueAt n = e.value? := by
  rw [valueAt, h.new]
  rfl

theorem anchorAt_eq (h : f.Gains g n e) (hnone : e.anchor = none) : g.anchorAt = f.anchorAt := by
  funext i
  by_cases hi : i = n
  · subst hi
    rw [anchorAt, anchorAt, h.new, h.fresh]
    exact hnone
  · rw [anchorAt, anchorAt, h.old i hi]

end Forest.Gains

namespace Grown

variable {s : Schema} {f₀ f : Forest} {k₀ k : Layout} {list : NodeId} {t : SchemaId}
  {cs : List NodeId} {keys : List SchemaId} {vs : List Value}

theorem start (h : Laid s f₀ k₀) {content : Content} (hf : f₀.allocate t content = .ok (f, list))
    {node : SchemaNode} (hnode : s.nodes[t]? = some node) (haccepts : node.Accepts content)
    (hempty : ∀ c, content = .inner c → c = {}) : Grown s f₀ k₀ f k₀ list t [] [] [] := by
  have hg := h.allocate_gains hf
  constructor
  case laid => exact h.allocate hf hnode haccepts hempty
  case payload_old => exact fun i hi => hg.payload_old (hg.ne_of_isSome hi)
  case anchors => exact hg.anchorAt_eq rfl
  case list_new => exact hg.kind?_fresh
  case list_kind => exact hg.kind?_new
  case layout => rw [← h.nil_below_new hg, Function.update_eq_self]
  case members => rfl
  case values => rfl
  case new =>
    intro i hi hsome
    by_cases heq : i = list
    · exact .inl heq
    · rw [hg.kind?_old heq, hi] at hsome
      cases hsome
  case keys_new => nofun
  case draws => exact .store hf .refl

theorem of_term (h : Laid s f₀ k₀) {node : SchemaNode} {v : Value}
    (hnode : s.nodes[t]? = some node) (htype : node.valueType? = some v.type)
    (hf : f₀.allocate t (.term v) = .ok (f, list)) : Grown s f₀ k₀ f k₀ list t [] node.keys [] := by
  have hkeys : node.keys = [] := by
    unfold SchemaNode.valueType? at htype
    unfold SchemaNode.keys
    split <;> simp_all
  rw [hkeys]
  exact start h hf hnode (show node.Accepts (.term v) from htype) (by rintro _ ⟨⟩)

theorem of_container (h : Laid s f₀ k₀) {node : SchemaNode} (hnode : s.nodes[t]? = some node)
    (hkind : node.kind = .container) (hf : f₀.allocate t (.inner {}) = .ok (f, list)) :
    Grown s f₀ k₀ f k₀ list t [] node.keys [] := by
  have hkeys : node.keys = [] := by simp [SchemaNode.keys, hkind]
  have haccepts : node.Accepts (.inner {}) := by
    simp [SchemaNode.Accepts, SchemaNode.valueType?, hkind]
  rw [hkeys]
  exact start h hf hnode haccepts fun c hc => (Content.inner.inj hc).symm

theorem kind_old (h : Grown s f₀ k₀ f k list t cs keys vs) (i : NodeId)
    (hi : (f₀.kind? i).isSome) : f.kind? i = f₀.kind? i :=
  kind?_eq_of_payload (h.payload_old i hi)

theorem value_old (h : Grown s f₀ k₀ f k list t cs keys vs) (i : NodeId)
    (hi : (f₀.kind? i).isSome) : f.valueAt i = f₀.valueAt i :=
  valueAt_eq_of_payload (h.payload_old i hi)

theorem children_eq (h : Grown s f₀ k₀ f k list t cs keys vs) : k (some list) = cs := by
  rw [h.layout, Function.update_self]

theorem isSome_of_mem (h : Grown s f₀ k₀ f k list t cs keys vs) {i : NodeId} (hi : i ∈ cs) :
    (f.kind? i).isSome := by
  rw [← h.children_eq] at hi
  exact h.laid.isSome_of_mem hi

theorem exists_key (h : Grown s f₀ k₀ f k list t cs keys vs) {i : NodeId} (hi : i ∈ cs) :
    ∃ key ∈ keys, f.kind? i = some key := by
  have hmem := List.mem_map_of_mem (f := f.kind?) hi
  rw [h.members] at hmem
  obtain ⟨key, hkey, heq⟩ := List.mem_map.1 hmem
  exact ⟨key, hkey, heq.symm⟩

section Key

variable {f' : Forest} {c : NodeId} {key : SchemaId} {v : Value}
  (h : Grown s f₀ k₀ f k list t cs keys vs)
  (hg : f.Gains f' c { schema := key, content := .term v })

include h hg

theorem ne_key {i : NodeId} (hi : i ∈ cs) : i ≠ c :=
  hg.ne_of_isSome (h.isSome_of_mem hi)

theorem list_kind_beside : f'.kind? list = some t := by
  rw [hg.kind?_old (hg.ne_of_isSome (by simp [h.list_kind])), h.list_kind]

theorem isOf_key (hkey : key ∉ keys) : ∀ i ∈ cs, f'.isOf key i = false := by
  intro i hi
  rw [isOf, hg.kind?_old (h.ne_key hg hi), decide_eq_false_iff_not]
  intro hik
  obtain ⟨key', hkey', heq⟩ := h.exists_key hi
  cases hik.symm.trans heq
  exact hkey hkey'

theorem splice_key (hs : s.Built) (hlaid : Laid s f' k) {node : SchemaNode}
    (hnode : s.nodes[key]? = some node) (hparent : node.parent = some t) (hkey : key ∉ keys) :
    f'.spliceLast (some list) c = .ok (f'.placed key (some list) cs.getLast? c none) ∧
      Laid s (f'.placed key (some list) cs.getLast? c none)
        (Function.update k (some list) (cs ++ [c])) := by
  have hlist := h.list_kind_beside hg
  obtain ⟨el, hel, -⟩ := get?_of_kind? hlist
  have halive : f'.Alive (some list) := alive_some.2 ⟨el, hel⟩
  have hparent' : node.parent = (some list).bind f'.kind? := hparent.trans hlist.symm
  obtain ⟨ch, hch⟩ := hlaid.chain_of_parent hs halive hnode hparent'
  have hcs : k (some list) = cs ++ [] := by rw [h.children_eq, List.append_nil]
  constructor
  · have hsplice := hlaid.spliceLast_eq halive hch hg.new rfl
    rwa [h.children_eq] at hsplice
  · exact hlaid.place hcs hg.new rfl hch ⟨node, hnode, hparent'⟩
      (.inr (.inr (by simpa using h.isOf_key hg hkey))) fun _ _ => .inr rfl

theorem add_key (hdraws : Draws f [c] f') {prev next : Option NodeId}
    (hlaid : Laid s (f'.placed key (some list) prev c next)
      (Function.update k (some list) (cs ++ [c]))) :
    Grown s f₀ k₀ (f'.placed key (some list) prev c next)
      (Function.update k (some list) (cs ++ [c])) list t (cs ++ [c]) (keys ++ [key])
      (vs ++ [v]) := by
  constructor
  case laid => exact hlaid
  case payload_old =>
    intro i hi
    have hi' : (f.kind? i).isSome := by rwa [kind?_eq_of_payload (h.payload_old i hi)]
    rw [payload_placed, hg.payload_old (hg.ne_of_isSome hi'), h.payload_old i hi]
  case anchors =>
    rw [← h.anchors, ← hg.anchorAt_eq rfl]
    exact funext (anchorAt_placed key prev next)
  case list_new => exact h.list_new
  case list_kind => rw [kind?_placed, h.list_kind_beside hg]
  case layout => rw [h.layout, Function.update_idem]
  case members =>
    rw [kind?_placed, List.map_append, List.map_append, ← h.members]
    congr 1
    · exact List.map_congr_left fun i hi => hg.kind?_old (h.ne_key hg hi)
    · rw [List.map_singleton, hg.kind?_new, List.map_singleton]
  case values =>
    rw [List.map_append, List.map_append, ← h.values]
    congr 1
    · refine List.map_congr_left fun i hi => valueAt_eq_of_payload ?_
      rw [payload_placed, hg.payload_old (h.ne_key hg hi)]
    · rw [List.map_singleton, valueAt_placed, hg.valueAt_new]
      rfl
  case new =>
    intro i hi hsome
    rw [kind?_placed] at hsome
    by_cases hic : i = c
    · exact .inr (by simp [hic])
    · rw [hg.kind?_old hic] at hsome
      exact (h.new i hi hsome).imp_right (List.mem_append_left _)
  case keys_new =>
    intro i hi
    rcases List.mem_append.1 hi with hi | hi
    · exact h.keys_new i hi
    · cases List.mem_singleton.1 hi
      -- what was there at the start is there now, and the slot of the new leaf was free until now
      by_contra hold
      have hsome := Option.isSome_iff_ne_none.2 hold
      rw [← kind?_eq_of_payload (h.payload_old c hsome), hg.kind?_fresh] at hsome
      cases hsome
  case draws => exact (h.draws.trans hdraws).congr rfl (slots_size_retouch ..)

end Key

theorem key {ctx : Context} (h : Grown ctx.schema f₀ k₀ f k list t cs keys vs)
    (hs : ctx.schema.Built) {key : SchemaId} {v : Value} {node : SchemaNode} {f' : Forest}
    {c : NodeId} (hf : f.allocate key (.term v) = .ok (f', c))
    (hnode : ctx.schema.nodes[key]? = some node) (hparent : node.parent = some t)
    (htype : node.valueType? = some v.type) (hkey : key ∉ keys) :
    Yields (f'.spliceLast (some list) c) fun g => g.size = f'.size ∧
      ∃ k', Grown ctx.schema f₀ k₀ g k' list t (cs ++ [c]) (keys ++ [key]) (vs ++ [v]) := by
  have hg := h.laid.allocate_gains hf
  have hstored := h.laid.allocate hf hnode (show node.Accepts (.term v) from htype) nofun
  obtain ⟨hsplice, hlaid⟩ := h.splice_key hg hs hstored hnode hparent hkey
  have hsize : (f'.placed key (some list) cs.getLast? c none).size = f'.size :=
    congrArg (· - f'.vacant.length) (slots_size_retouch ..)
  exact .intro hsplice ⟨hsize, _, h.add_key hg (.store hf .refl) hlaid⟩

theorem group_old (h : Grown s f₀ k₀ f k list t cs keys vs) (h₀ : Laid s f₀ k₀) {p : Option NodeId}
    (hp : p ≠ some list) (t' : SchemaId) : f.group k p t' = f₀.group k₀ p t' := by
  rw [group, h.layout, Function.update_of_ne hp]
  apply List.filter_congr
  intro i hi
  rw [isOf, h.kind_old i (h₀.isSome_of_mem hi), isOf]

theorem ne_of_old (h : Grown s f₀ k₀ f k list t cs keys vs) {i : NodeId}
    (hi : (f₀.kind? i).isSome) : some i ≠ some list := by
  intro heq
  cases heq
  simp [h.list_new] at hi

theorem row_old (h : Grown s f₀ k₀ f k list t cs keys vs) (h₀ : Laid s f₀ k₀) {i : NodeId}
    (node : SchemaNode) (hi : (f₀.kind? i).isSome) : f.row k node i = f₀.row k₀ node i := by
  apply row_congr (h.value_old i hi)
  intro key _
  rw [keyValue, keyValue, h.group_old h₀ (h.ne_of_old hi)]
  cases hhead : (f₀.group k₀ (some i) key).head? with
  | none => rfl
  | some c => exact h.value_old c (h₀.isSome_of_mem (mem_group.1 (List.mem_of_head? hhead)).1)

theorem unsorted (h : Grown s f₀ k₀ f k list t cs keys vs)
    (hleaf : ∀ key ∈ keys, ∀ m, s.nodes[key]? = some m → ∃ type, m.kind = .leaf type)
    {t' : SchemaId} {node : SchemaNode} (hnode : s.nodes[t']? = some node)
    (hsome : node.sortKind?.isSome) : f.group k (some list) t' = [] := by
  apply List.filter_eq_nil_iff.2
  intro c hc
  rw [h.children_eq] at hc
  obtain ⟨key, hkey, hck⟩ := h.exists_key hc
  simp only [isOf, hck, Option.some.injEq, decide_eq_true_eq]
  intro heq
  subst heq
  obtain ⟨type, htype⟩ := hleaf key hkey node hnode
  rw [SchemaNode.sortKind?, htype] at hsome
  split at hsome <;> simp_all

theorem carries {ctx : Context} (h : Grown ctx.schema f₀ k₀ f k list t cs keys vs)
    (h₀ : Laid ctx.schema f₀ k₀)
    (hleaf : ∀ key ∈ keys, ∀ m, ctx.schema.nodes[key]? = some m → ∃ type, m.kind = .leaf type) :
    Carries ctx f₀ k₀ f k where
  groups p t' node hnode hsorted := by
    by_cases hp : p = some list
    · rw [hp]
      exact .inl (h.unsorted hleaf hnode hsorted)
    · refine .inr ⟨h.group_old h₀ hp t', fun n hn => ⟨?_, by rw [h.anchors]⟩⟩
      exact h.row_old h₀ node (h₀.isSome_of_mem (mem_group.1 hn).1)
  anchors n x hx := by rwa [← h.anchors]
  stays n x p t' _ hn := by
    have hp : p ≠ some list := by
      intro heq
      subst heq
      obtain ⟨e, he⟩ := h₀.alive_of_mem (mem_group.1 hn).1 list rfl
      exact h.ne_of_old (by simp [kind?, he]) rfl
    rwa [h.group_old h₀ hp]

theorem keyed (h : Grown s f₀ k₀ f k list t cs keys vs) (h₀ : Laid s f₀ k₀)
    (hkeyed : Keyed s f₀ k₀) {node : SchemaNode} (hnode : s.nodes[t]? = some node)
    (hkeys : ∀ key ∈ node.keys, key ∈ keys)
    (hleaf : ∀ key ∈ keys, ∀ m, s.nodes[key]? = some m → ∃ type, m.kind = .leaf type) :
    Keyed s f k := by
  intro n t' node' hn hnode' key hkey
  by_cases hold : (f₀.kind? n).isSome
  · rw [h.group_old h₀ (h.ne_of_old hold)]
    exact hkeyed n t' node' (h.kind_old n hold ▸ hn) hnode' key hkey
  · rcases h.new n (by simpa using hold) (by simp [hn]) with rfl | hc
    · cases h.list_kind.symm.trans hn
      cases hnode.symm.trans hnode'
      have hmem : some key ∈ cs.map f.kind? := by
        rw [h.members]
        exact List.mem_map_of_mem (hkeys key hkey)
      obtain ⟨c, hc, hck⟩ := List.mem_map.1 hmem
      exact List.ne_nil_of_mem (mem_group.2 ⟨by rw [h.children_eq]; exact hc, hck⟩)
    · -- a new key leaf has no keys itself
      obtain ⟨key', hkey', hck⟩ := h.exists_key hc
      cases hck.symm.trans hn
      obtain ⟨type, htype⟩ := hleaf _ hkey' node' hnode'
      simp [SchemaNode.keys, htype] at hkey

theorem sound {ctx : Context} (h : Grown ctx.schema f₀ k₀ f k list t cs keys vs)
    (h₀ : Sound ctx f₀ k₀) {node : SchemaNode} (hnode : ctx.schema.nodes[t]? = some node)
    (hkeys : ∀ key ∈ node.keys, key ∈ keys)
    (hleaf : ∀ key ∈ keys, ∀ m, ctx.schema.nodes[key]? = some m → ∃ type, m.kind = .leaf type) :
    Sound ctx f k :=
  h₀.carry (h.carries h₀.laid hleaf) h.laid (h.keyed h₀.laid h₀.keyed hnode hkeys hleaf)

theorem keyLed (h : Grown s f₀ k₀ f k list t cs keys vs) (h₀ : Laid s f₀ k₀)
    (hled : KeyLed s f₀ k₀) {node : SchemaNode} (hnode : s.nodes[t]? = some node)
    (hkeys : node.keys = keys)
    (hleaf : ∀ key ∈ keys, ∀ m, s.nodes[key]? = some m → m.keys = []) : KeyLed s f k := by
  intro p
  by_cases hp : p = some list
  · subst hp
    refine ⟨cs, [], by rw [h.children_eq, List.append_nil], ?_, by simp⟩
    rw [keysBelow_eq h.list_kind hnode, hkeys, h.members]
  · obtain ⟨cs₀, rest, hk, hcs, hrest⟩ := hled p
    have hmem : ∀ i ∈ cs₀ ++ rest, f.kind? i = f₀.kind? i :=
      fun i hi => h.kind_old i (h₀.isSome_of_mem (p := p) (by rw [hk]; exact hi))
    have hsame : f.keysBelow s p = f₀.keysBelow s p := by
      cases p with
      | none => rfl
      | some i =>
        by_cases hi : (f₀.kind? i).isSome
        · rw [keysBelow, keysBelow, Option.bind_some, Option.bind_some, h.kind_old i hi]
        · -- a new key leaf needs no keys itself
          have hnone : f₀.kind? i = none := by simpa using hi
          have hold : f₀.keysBelow s (some i) = [] := by simp [keysBelow, hnone]
          rw [hold]
          cases hnew : f.kind? i with
          | none => simp [keysBelow, hnew]
          | some key =>
            have hic := (h.new i hnone (by simp [hnew])).resolve_left fun heq => hp (by rw [heq])
            obtain ⟨key', hkey, heq⟩ := h.exists_key hic
            cases hnew.symm.trans heq
            cases hm : s.nodes[key]? with
            | none => simp [keysBelow, hnew, hm]
            | some m => rw [keysBelow_eq hnew hm, hleaf key hkey m hm]
    refine ⟨cs₀, rest, by rw [h.layout, Function.update_of_ne hp, hk], ?_, ?_⟩
    · rw [hsame, ← hcs]
      exact List.map_congr_left fun i hi => hmem i (List.mem_append_left _ hi)
    · intro m hm
      rw [hmem m (List.mem_append_right _ hm)]
      exact hrest m hm

end Grown

def KeyTypes (s : Schema) (keys : List SchemaId) (values : List Value) : Prop :=
  ∀ x ∈ keys.zip values, ∃ node, s.nodes[x.1]? = some node ∧ node.valueType? = some x.2.type

namespace Forest

/-- There is a layout in which the forest is sound and list instances start with their keys. -/
def IsSound (ctx : Context) (f : Forest) : Prop :=
  ∃ k, Sound ctx f k ∧ KeyLed ctx.schema f k

variable {ctx : Context} {f : Forest}

/-- What a forest is laid out as is read off its links. -/
theorem isSound_iff : IsSound ctx f ↔ Sound ctx f f.layout ∧ KeyLed ctx.schema f f.layout := by
  constructor
  · rintro ⟨k, h, hled⟩
    rw [← h.laid.eq_layout]
    exact ⟨h, hled⟩
  · exact fun h => ⟨f.layout, h⟩

theorem perform_create (t : SchemaId) (content : Content) (f : Forest) :
    (create t content).perform f =
      (fun stored => (.ok stored.2, stored.1)) <$> f.allocate t content := by
  unfold create
  rw [perform_bind, perform_look]
  cases f.allocate t content <;> rfl

theorem create_fits (hf : f.vacant.length ≤ f.slots.size) (t : SchemaId) (content : Content) :
    Fits 1 (create t content) f fun r g => ∃ n, r = .ok n ∧
      f.allocate t content = .ok (g, n) := by
  rcases f.allocate_cases t content with hstored | hfull
  · obtain ⟨g, n, hstored⟩ := hstored
    refine .inl (Lands.intro (r := .ok n) (g := g) ?_ ⟨⟨n, rfl, hstored⟩, fun _ _ => ?_⟩)
    · rw [perform_create, hstored]
      rfl
    · exact (size_allocate hstored hf).1
  · refine .inr ⟨?_, Nat.lt_succ_of_le hfull.2⟩
    rw [perform_create, hfull.1]
    rfl

/-- A leaf or an instance of a leaf-list is created with a value of its type, and not at all with
another value. -/
theorem createTerm_fits (hf : f.vacant.length ≤ f.slots.size) {t : SchemaId} {node : SchemaNode}
    (hnode : ctx.schema.nodes[t]? = some node) (v : Value) :
    Fits 1 (createTerm ctx t v) f fun r g => match r with
      | .ok n => node.valueType? = some v.type ∧ f.allocate t (.term v) = .ok (g, n)
      | .error _ => node.valueType? ≠ some v.type ∧ g = f := by
  refine Fits.bind_look (Schema.get_eq_ok.2 hnode) ?_
  cases htype : node.valueType? with
  | none => exact Fits.refuse ⟨nofun, rfl⟩
  | some type =>
    by_cases heq : type = v.type
    · simp only [if_pos heq]
      refine (create_fits hf t (.term v)).mono fun r g hr => ?_
      obtain ⟨n, rfl, hstored⟩ := hr
      exact ⟨by rw [heq], hstored⟩
    · simp only [if_neg heq]
      exact Fits.refuse ⟨by simpa using heq, rfl⟩

theorem createContainer_fits (hf : f.vacant.length ≤ f.slots.size) {t : SchemaId}
    {node : SchemaNode} (hnode : ctx.schema.nodes[t]? = some node) :
    Fits 1 (createContainer ctx t) f fun r g => match r with
      | .ok n => node.kind = .container ∧ f.allocate t (.inner {}) = .ok (g, n)
      | .error _ => node.kind ≠ .container ∧ g = f := by
  refine Fits.bind_look (Schema.get_eq_ok.2 hnode) ?_
  by_cases hkind : node.kind = .container
  · rw [if_pos hkind]
    refine (create_fits hf t (.inner {})).mono fun r g hr => ?_
    obtain ⟨n, rfl, hstored⟩ := hr
    exact ⟨hkind, hstored⟩
  · rw [if_neg hkind]
    exact Fits.refuse ⟨hkind, rfl⟩

theorem requireKeyTypes_lands {keys : List SchemaId}
    (hkeys : ∀ key ∈ keys, (ctx.schema.nodes[key]?).isSome) (values : List Value) (f : Forest) :
    Lands (requireKeyTypes ctx keys values) f fun r g => g = f ∧
      (r = .ok () ↔ KeyTypes ctx.schema keys values) := by
  induction keys generalizing values with
  | nil => exact Lands.pure ⟨rfl, by simp [KeyTypes]⟩
  | cons key keys ih =>
    cases values with
    | nil => exact Lands.pure ⟨rfl, by simp [KeyTypes]⟩
    | cons v values =>
      obtain ⟨node, hnode⟩ := Option.isSome_iff_exists.1 (hkeys key (by simp))
      refine Lands.bind_look (Schema.get_eq_ok.2 hnode) ?_
      refine Lands.guard (fun htype => ⟨rfl, ?_⟩) fun htype => ?_
      · simp [KeyTypes, hnode, htype]
      · refine Lands.mono (ih (fun key' hkey' => hkeys key' (by simp [hkey'])) values)
          fun r g hr => ⟨hr.1, hr.2.trans ?_⟩
        simp [KeyTypes, hnode, not_not.1 htype]

theorem createKeys_fits {f₀ : Forest} {k₀ k : Layout} {list : NodeId} {t : SchemaId}
    {cs : List NodeId} {past keys : List SchemaId} {vs values : List Value}
    (h : Grown ctx.schema f₀ k₀ f k list t cs past vs) (hs : ctx.schema.Built)
    (hnd : (past ++ keys).Nodup) (htypes : KeyTypes ctx.schema keys values)
    (hlen : keys.length = values.length)
    (hparent : ∀ key ∈ keys, ∀ m, ctx.schema.nodes[key]? = some m → m.parent = some t) :
    Fits values.length (createKeys list keys values) f fun r g => r = .ok () ∧
      ∃ k' cs', Grown ctx.schema f₀ k₀ g k' list t cs' (past ++ keys) (vs ++ values) := by
  induction keys generalizing past vs values f k cs with
  | nil =>
    cases values with
    | nil => exact Fits.pure ⟨rfl, k, cs, by simpa using h⟩
    | cons v values => cases hlen
  | cons key keys ih =>
    cases values with
    | nil => cases hlen
    | cons v values =>
      obtain ⟨node, hnode, htype⟩ := htypes (key, v) (by simp)
      have hkey : key ∉ past := by
        intro hmem
        exact (List.nodup_append.1 hnd).2.2 key hmem key (by simp) rfl
      have htypes' : KeyTypes ctx.schema keys values := fun x hx => htypes x (by simp [hx])
      rw [List.length_cons, Nat.add_comm]
      refine Fits.bind (create_fits h.laid.length_vacant_le key (.term v)) ?_ ?_
      · rintro c f' ⟨_, heq, hstored⟩
        cases heq
        obtain ⟨g, hsplice, hsize, k', hgrown⟩ :=
          h.key hs hstored hnode (hparent key (by simp) node hnode) htype hkey
        have hrest := ih hgrown (by simpa using hnd) htypes' (by simpa using hlen)
          (fun key' hkey' => hparent key' (by simp [hkey']))
        refine Fits.bind_change hsplice hsize ?_
        simpa using hrest
      · rintro _ _ ⟨_, heq, -⟩
        cases heq

theorem createKeyed_fits {k : Layout} (h : Laid ctx.schema f k) (hs : ctx.schema.Built)
    {t : SchemaId} {node : SchemaNode} (hnode : ctx.schema.nodes[t]? = some node)
    {keys : List SchemaId} (hkind : node.kind = .list keys) {values : List Value}
    (hlen : keys.length = values.length) (htypes : KeyTypes ctx.schema keys values) :
    Fits (1 + values.length) (do
      let list ← create t (.inner {})
      createKeys list keys values
      pure list) f fun r g => ∃ n, r = .ok n ∧
        ∃ k' cs, Grown ctx.schema f k g k' n t cs keys values := by
  have hkeys : node.keys = keys := by simp [SchemaNode.keys, hkind]
  have haccepts : node.Accepts (.inner {}) := by
    simp [SchemaNode.Accepts, SchemaNode.valueType?, hkind]
  have hnd : ([] ++ keys).Nodup := by simpa using hkeys ▸ hs.keys_nodup hnode
  refine Fits.bind (create_fits h.length_vacant_le t (.inner {})) ?_ ?_
  · rintro list g ⟨_, heq, hstored⟩
    cases heq
    have hstart := Grown.start h hstored hnode haccepts fun c hc => (Content.inner.inj hc).symm
    have hgrow := createKeys_fits hstart hs hnd htypes hlen
      fun key hkey m hm => (hs.key_of_get hnode (hkeys ▸ hkey) hm).2.1
    rw [← Nat.add_zero values.length]
    refine hgrow.bind (fun _ g hg => Fits.pure ⟨list, rfl, by simpa using hg.2⟩) ?_
    rintro _ _ ⟨heq, -⟩
    cases heq
  · rintro _ _ ⟨_, heq, -⟩
    cases heq

/-- A list instance is created with one key leaf for each key if there are as many values, all of
the right types; otherwise it is not created at all. -/
theorem createList_fits {k : Layout} (h : Laid ctx.schema f k) (hs : ctx.schema.Built)
    {t : SchemaId} {node : SchemaNode} (hnode : ctx.schema.nodes[t]? = some node)
    (values : List Value) :
    Fits (1 + values.length) (createList ctx t values) f fun r g => match r with
      | .ok n => node.kind = .list node.keys ∧ node.keys.length = values.length ∧
        ∃ k' cs, Grown ctx.schema f k g k' n t cs node.keys values
      | .error _ => g = f ∧ ¬(node.kind = .list node.keys ∧ node.keys.length = values.length ∧
        KeyTypes ctx.schema node.keys values) := by
  refine Fits.bind_look (Schema.get_eq_ok.2 hnode) ?_
  cases hkind : node.kind with
  | list keys =>
    have hkeys : node.keys = keys := by simp [SchemaNode.keys, hkind]
    rw [hkeys]
    refine Fits.guard (fun hlen => ⟨rfl, fun hvalid => hlen hvalid.2.1⟩) fun hlen => ?_
    have hlen := not_not.1 hlen
    have hexist : ∀ key ∈ keys, (ctx.schema.nodes[key]?).isSome := by
      intro key hkey
      obtain ⟨m, type, hm, -⟩ := hs.key hnode (hkeys ▸ hkey)
      simp [hm]
    rw [← Nat.zero_add (1 + values.length)]
    refine Fits.bind (.of_lands (requireKeyTypes_lands hexist values f) ?_) ?_ ?_
    · refine (requireKeyTypes_lands hexist values f).ensures.mono fun r g hr _ _ => ?_
      rw [hr.1]
    · rintro _ g ⟨rfl, htypes⟩
      refine (createKeyed_fits h hs hnode hkind hlen (htypes.1 rfl)).mono fun r g hr => ?_
      obtain ⟨n, rfl, k', cs, hgrown⟩ := hr
      exact ⟨rfl, hlen, k', cs, hgrown⟩
    · rintro why _ ⟨rfl, htypes⟩
      refine ⟨rfl, fun hvalid => ?_⟩
      cases htypes.2 hvalid.2.2
  | container | leaf | leafList =>
    refine Fits.refuse ⟨rfl, fun hvalid => ?_⟩
    cases hvalid.1

theorem IsSound.grown {f₀ : Forest} {k₀ k : Layout} {list : NodeId} {t : SchemaId}
    {cs : List NodeId} {node : SchemaNode} {vs : List Value}
    (h : Grown ctx.schema f₀ k₀ f k list t cs node.keys vs) (h₀ : Sound ctx f₀ k₀)
    (hled : KeyLed ctx.schema f₀ k₀) (hs : ctx.schema.Built)
    (hnode : ctx.schema.nodes[t]? = some node) : IsSound ctx f := by
  have hleaf : ∀ key ∈ node.keys, ∀ m, ctx.schema.nodes[key]? = some m →
      ∃ type, m.kind = .leaf type :=
    fun _ hkey _ hm => (hs.key_of_get hnode hkey hm).1
  refine ⟨k, h.sound h₀ hnode (fun _ hkey => hkey) hleaf, h.keyLed h₀.laid hled hnode rfl ?_⟩
  intro key hkey m hm
  obtain ⟨type, htype⟩ := hleaf key hkey m hm
  simp [SchemaNode.keys, htype]

theorem createTerm_keeps (ctx : Context) (hs : ctx.schema.Built) (t : SchemaId) (v : Value) :
    Keeps (IsSound ctx) (createTerm ctx t v) := by
  intro f hf
  apply Ensures.of_look
  intro node hnode
  have hnode := Schema.get_eq_ok.1 hnode
  obtain ⟨k, h, hled⟩ := hf
  refine (createTerm_fits h.laid.length_vacant_le hnode v).ensures.mono fun r g hr => ?_
  cases r with
  | error _ => exact hr.2 ▸ ⟨k, h, hled⟩
  | ok n => exact .grown (.of_term h.laid hnode hr.1 hr.2) h hled hs hnode

theorem createContainer_keeps (ctx : Context) (hs : ctx.schema.Built) (t : SchemaId) :
    Keeps (IsSound ctx) (createContainer ctx t) := by
  intro f hf
  apply Ensures.of_look
  intro node hnode
  have hnode := Schema.get_eq_ok.1 hnode
  obtain ⟨k, h, hled⟩ := hf
  refine (createContainer_fits h.laid.length_vacant_le hnode).ensures.mono fun r g hr => ?_
  cases r with
  | error _ => exact hr.2 ▸ ⟨k, h, hled⟩
  | ok n => exact .grown (.of_container h.laid hnode hr.1 hr.2) h hled hs hnode

theorem createList_keeps (ctx : Context) (hs : ctx.schema.Built) (t : SchemaId)
    (values : List Value) : Keeps (IsSound ctx) (createList ctx t values) := by
  intro f hf
  apply Ensures.of_look
  intro node hnode
  have hnode := Schema.get_eq_ok.1 hnode
  obtain ⟨k, h, hled⟩ := hf
  refine (createList_fits h.laid hs hnode values).ensures.mono fun r g hr => ?_
  cases r with
  | error _ => exact hr.1 ▸ ⟨k, h, hled⟩
  | ok n =>
    obtain ⟨-, -, k', cs, hgrown⟩ := hr
    exact .grown hgrown h hled hs hnode

section Anchors

variable {k : Layout} (h : Laid ctx.schema f k)

include h

theorem createTerm_anchorAt (t : SchemaId) (v : Value) :
    Ensures (createTerm ctx t v) f fun _ g => g.anchorAt = f.anchorAt := by
  apply Ensures.of_look
  intro node hnode
  have hcreate := createTerm_fits h.length_vacant_le (Schema.get_eq_ok.1 hnode) v
  refine hcreate.ensures.mono fun r g hr => ?_
  cases r with
  | error _ => rw [hr.2]
  | ok n => exact (h.allocate_gains hr.2).anchorAt_eq rfl

theorem createContainer_anchorAt (t : SchemaId) :
    Ensures (createContainer ctx t) f fun _ g => g.anchorAt = f.anchorAt := by
  apply Ensures.of_look
  intro node hnode
  have hcreate := createContainer_fits h.length_vacant_le (Schema.get_eq_ok.1 hnode)
  refine hcreate.ensures.mono fun r g hr => ?_
  cases r with
  | error _ => rw [hr.2]
  | ok n => exact (h.allocate_gains hr.2).anchorAt_eq rfl

theorem createList_anchorAt (hs : ctx.schema.Built) (t : SchemaId) (values : List Value) :
    Ensures (createList ctx t values) f fun _ g => g.anchorAt = f.anchorAt := by
  apply Ensures.of_look
  intro node hnode
  refine (createList_fits h hs (Schema.get_eq_ok.1 hnode) values).ensures.mono fun r g hr => ?_
  cases r with
  | error _ => rw [hr.1]
  | ok n =>
    obtain ⟨-, -, _, _, hgrown⟩ := hr
    exact hgrown.anchors

end Anchors

end Forest

end InstanceTree
