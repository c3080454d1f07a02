import InstanceTree.Proofs.Document.Completion
import InstanceTree.Proofs.Document.Distinct
import InstanceTree.Proofs.Document.Linking

namespace InstanceTree

open Edit Forest

theorem Forest.bears_keyLeaves {f : Forest} {cs : List NodeId} {keys : List SchemaId}
    {values : List Value} (hkeys : cs.map f.kind? = keys.map some)
    (hvalues : cs.map f.valueAt = values.map some) (hnd : keys.Nodup)
    (hleaf : ∀ c ∈ cs, ∀ v, f.valueAt c = some v → f.layout (some c) = []) :
    Bears f cs (keyLeaves keys values) := by
  induction cs generalizing keys values with
  | nil =>
    cases keys with
    | nil => rfl
    | cons key keys => cases hkeys
  | cons c cs ih =>
    cases keys with
    | nil => cases hkeys
    | cons key keys =>
      cases values with
      | nil => cases hvalues
      | cons v values =>
        obtain ⟨hkey, hkeys⟩ := List.cons.inj hkeys
        obtain ⟨hv, hvalues⟩ := List.cons.inj hvalues
        obtain ⟨hnew, hnd⟩ := List.nodup_cons.1 hnd
        have hrest := ih hkeys hvalues hnd fun m hm => hleaf m (List.mem_cons_of_mem _ hm)
        have hc : Depicts f c (.leaf v) := ⟨hv, hleaf c List.mem_cons_self v hv⟩
        refine ⟨[c], cs, rfl, List.cons_ne_nil _ _, fun m hm => ?_, ⟨hkey, hc, trivial⟩, hrest⟩
        obtain ⟨t, ht, hkind⟩ := hrest.kind_mem m hm
        simp only [isOf, hkind, Option.some.injEq, decide_eq_false_iff_not]
        rintro rfl
        exact hnew (keyLeaves_fst ht)

section Reading

variable {ctx : Context} {f g g' : Forest} {p : Option NodeId} {t : SchemaId} {node : SchemaNode}
  {old : List NodeId} {xs : List Tree} {y y₀ : Tree} {n : NodeId} {values : List Value}

theorem Born.depicts (h : Born ctx f t values n g) (hs : ctx.schema.Built)
    (hnode : ctx.schema.nodes[t]? = some node) :
    Depicts g n (.node (g.valueAt n) (keyLeaves node.keys values)) := by
  obtain ⟨cs, node', hnode', hgrown⟩ := h.grown
  cases hnode.symm.trans hnode'
  refine ⟨rfl, ?_⟩
  rw [hgrown.children_eq]
  exact bears_keyLeaves hgrown.members hgrown.values (hs.keys_nodup hnode) fun c _ v hv =>
    hgrown.laid.layout_of_value hv

/-- A new instance of `t` has been linked behind the old children, at the place where every instance
with its row goes. -/
structure Entered (ctx : Context) (f : Forest) (p : Option NodeId) (t : SchemaId)
    (node : SchemaNode) (old : List NodeId) (xs : List Tree) (y₀ : Tree) (n : NodeId)
    (g : Forest) : Prop where
  isSound : IsSound ctx g
  growth : Extends f p g
  fresh : f.kind? n = none
  kind_eq : g.kind? n = some t
  depicts : Depicts g n y₀
  placed : ∃ gx gy tx ty, g.layout p = old ++ (gx ++ n :: gy) ∧ f.layout p = old ++ (gx ++ gy) ∧
    DepictsAll f t gx tx ∧ DepictsAll f t gy ty ∧
      ∀ y : Tree, y.row node = y₀.row node → node.place y xs = tx ++ y :: ty

namespace Forest.Trailing

theorem grow (h : Trailing ctx f p t node old xs) (hfg : Extends f p g) (hg : IsSound ctx g)
    {ys : List Tree} (hys : ∃ ns, g.layout p = old ++ ns ∧ DepictsAll g t ns ys) :
    Trailing ctx g p t node old ys where
  isSound := hg
  alive := hfg.alive h.alive
  nodeOf := h.nodeOf
  parent := by
    cases p with
    | none => exact h.parent
    | some i =>
      rw [h.parent]
      exact (hfg.kind i (alive_iff.1 h.alive i rfl)).symm
  others m hm := by
    obtain ⟨ns, hlayout, -⟩ := h.instances
    have hold := h.sound.laid.isSome_of_mem (p := p) (n := m) (by simp [hlayout, hm])
    rw [isOf, hfg.kind m hold]
    exact h.others m hm
  instances := hys

theorem clear (h : Trailing ctx f p t node old xs) (hs : ctx.schema.Built) {ns : List NodeId}
    (hns : ∀ m ∈ ns, m ∈ f.layout p) : ∀ m ∈ ns, Extends.Clear f p m :=
  fun m hm => Extends.clear_of_mem h.sound.laid hs (hns m hm)

theorem arrange?_eq {ys : List Tree} (h : Trailing ctx f p t node old (node.arrange ys)) :
    ctx.arrange? node ys = some (node.arrange ys) := by
  have hroom := h.hasRoom
  rw [SchemaNode.length_arrange] at hroom
  exact Context.arrange?_eq_some hroom

theorem enter (h : Trailing ctx f p t node old xs) (hs : ctx.schema.Built)
    (hkey : node.isKey = false) (hborn : Born ctx f t values n g) :
    Passes (linkNew ctx p n) g
      (fun _ g' => Entered ctx f p t node old xs
        (.node (g.valueAt n) (keyLeaves node.keys values)) n g')
      (ctx.hasRoom node (xs.length + 1) = false) := by
  obtain ⟨ns, hlayout, hns⟩ := h.instances
  have hfg := hborn.growth p
  have hdepicts := hborn.depicts hs h.nodeOf
  have hclear : ∀ m ∈ ns, Extends.Clear f p m :=
    h.clear hs fun m hm => by simp [hlayout, hm]
  have hg : Trailing ctx g p t node old xs := h.grow hfg hborn.isSound
    ⟨ns, (hborn.children_eq h.alive).trans hlayout, hfg.depictsAll h.sound.laid hs xs hclear hns⟩
  have hlink := linkNew_lands hborn.isSound hs hg.alive hborn.kind_eq
  have hgrows : Ensures (linkNew ctx p n) g fun r g' => ∀ a, r = .ok a →
      IsSound ctx g' ∧ Extends g p g' ∧ g'.kind? n = some t := by
    refine hlink.ensures.mono fun r g' hr a hok => ?_
    subst hok
    obtain ⟨e, node', us, vs, -, hplacing, -⟩ := hr
    exact ⟨hplacing.isSound hborn.isSound, hplacing.growth,
      (congrFun hplacing.kind?_eq n).trans hborn.kind_eq⟩
  have hplaces := hg.linkNew_places hs hkey hborn.kind_eq (hborn.loose h.sound.laid hs)
  refine (hplaces.and_ensures hgrows).mono ?_ id
  rintro _ g' ⟨⟨gx, gy, tx, ty, hlayout', hlayout'', htx, hty, hplace⟩, hsound, hgg', hkind⟩
  rw [hborn.children_eq h.alive] at hlayout''
  cases List.append_cancel_left (hlayout.symm.trans hlayout'')
  obtain ⟨us, vs, rfl, hus, hvs⟩ := hns.split
  -- what the instances in front and behind hold is what they held before
  have htx' := hfg.depictsAll h.sound.laid hs us
    (fun m hm => hclear m (List.mem_append_left _ hm)) hus
  have hty' := hfg.depictsAll h.sound.laid hs vs
    (fun m hm => hclear m (List.mem_append_right _ hm)) hvs
  cases DepictsAll.unique us htx' htx
  cases DepictsAll.unique vs hty' hty
  refine ⟨hsound, hfg.trans hgg', hborn.kind_none, hkind, ?_, gx, gy, tx, ty, hlayout', hlayout'',
    hus, hvs, fun y hy => hplace y (hy.trans (row_eq hdepicts node).symm)⟩
  refine hgg'.depicts hg.sound.laid hs _ ⟨t, hborn.kind_eq, ?_⟩ hdepicts
  rintro i u rfl hu
  exact hs.parent_lt h.nodeOf (hg.parent.trans hu)

end Forest.Trailing

namespace Forest

theorem Bears.push {ns ms : List NodeId} {a : Grove} (hxs : DepictsAll f t ns xs)
    (ha : Bears f ms a) (hms : ∀ m ∈ ms, f.isOf t m = false) :
    Bears f (ns ++ ms) (Grove.push t xs a) := by
  cases xs with
  | nil =>
    cases ns with
    | nil => exact ha
    | cons n ns => exact hxs.elim
  | cons x xs =>
    cases ns with
    | nil => exact hxs.elim
    | cons n ns => exact ⟨n :: ns, ms, rfl, List.cons_ne_nil _ _, hms, hxs, ha⟩

/-- No sibling at hand is an instance that a member stands for, key leaves apart. -/
def Lacks (ctx : Context) (f : Forest) (p : Option NodeId) (members : List (String × Json)) :
    Prop :=
  ∀ m ∈ f.layout p, ∀ c node, f.kind? m = some c → ctx.schema.nodes[c]? = some node →
    node.isKey = false → node.name ∉ members.map Prod.fst

theorem Trailing.lacks (hg : Trailing ctx g p t node (f.layout p) xs)
    (hlaid : Laid ctx.schema f f.layout) (hfg : Extends f p g) {members : List (String × Json)}
    (hlacks : Lacks ctx f p members) (hname : node.name ∉ members.map Prod.fst) :
    Lacks ctx g p members := by
  intro m hm c n hc hn hnokey
  obtain ⟨ns, hlayout, hns⟩ := hg.instances
  rw [hlayout] at hm
  rcases List.mem_append.1 hm with hm | hm
  · rw [hfg.kind m (hlaid.isSome_of_mem hm)] at hc
    exact hlacks m hm c n hc hn hnokey
  · cases hc.symm.trans (hns.kind_eq m hm)
    cases hn.symm.trans hg.nodeOf
    exact hname

theorem Lacks.trailing {members : List (String × Json)} (hlacks : Lacks ctx f p members)
    (h : IsSound ctx f) (hp : f.Alive p) (hnode : ctx.schema.nodes[t]? = some node)
    (hparent : node.parent = p.bind f.kind?) (hkey : node.isKey = false)
    (hname : node.name ∈ members.map Prod.fst) : Trailing ctx f p t node (f.layout p) [] := by
  refine ⟨h, hp, hnode, hparent, fun m hm => ?_, [], by simp, trivial⟩
  simp only [isOf, decide_eq_false_iff_not]
  exact fun hc => hlacks m hm t node hc hnode hkey hname

theorem isSome_of_kind (h : IsSound ctx f) : ∀ i, p.bind f.kind? = some i →
    (ctx.schema.nodes[i]?).isSome := by
  intro i hi
  obtain ⟨m, -, hm⟩ := Option.bind_eq_some_iff.1 hi
  obtain ⟨e, he, rfl⟩ := get?_of_kind? hm
  obtain ⟨node, hnode, -⟩ := (isSound_iff.1 h).1.laid.typed m e he
  simp [hnode]

theorem Trailing.join (h : Trailing ctx g p t node old xs) (hs : ctx.schema.Built)
    (hgg' : Extends g p g') {ms : List NodeId} {a : Grove}
    (hlayout : g'.layout p = g.layout p ++ ms) (ha : Bears g' ms a) (ht : t ∉ a.map Prod.fst) :
    ∃ ns, g'.layout p = old ++ ns ∧ Bears g' ns (Grove.push t xs a) := by
  obtain ⟨ns, hold, hns⟩ := h.instances
  refine ⟨ns ++ ms, by rw [hlayout, hold, List.append_assoc], Bears.push ?_ ha fun m hm => ?_⟩
  · exact hgg'.depictsAll h.sound.laid hs xs (h.clear hs fun m hm => by simp [hold, hm]) hns
  · obtain ⟨u, hu, hkind⟩ := ha.kind_mem m hm
    simp only [isOf, hkind, Option.some.injEq, decide_eq_false_iff_not]
    rintro rfl
    exact ht hu

theorem createContainer_reads (h : IsSound ctx f) (hs : ctx.schema.Built)
    (hnode : ctx.schema.nodes[t]? = some node) (hkind : node.kind = .container) :
    Passes (createContainer ctx t) f (fun n g => Born ctx f t [] n g) False := by
  refine (createContainer_born h hs hnode).ensures.mono fun r g hr => ?_
  cases r with
  | ok n => exact hr.1
  | error _ => exact hr hkind

end Forest

theorem Entered.finish (he : Entered ctx f p t node old xs y₀ n g)
    (h : Trailing ctx f p t node old xs) (hs : ctx.schema.Built) (hgg' : Extends g (some n) g')
    (hg' : IsSound ctx g') (hy : Depicts g' n y) (hrow : y.row node = y₀.row node) :
    Trailing ctx g' p t node old (node.place y xs) := by
  have hfg' : Extends f p g' := he.growth.nested he.fresh hgg'
  obtain ⟨gx, gy, tx, ty, hlayout, hlayout', htx, hty, hplace⟩ := he.placed
  have hne : p ≠ some n := by
    rintro rfl
    have hsome := alive_iff.1 h.alive n rfl
    simp [he.fresh] at hsome
  refine h.grow hfg' hg' ⟨gx ++ n :: gy, ?_, ?_⟩
  · rw [hgg'.layout p (he.growth.alive h.alive) hne, hlayout]
  · rw [hplace y hrow]
    have hn : g'.kind? n = some t :=
      (hgg'.kind n (by simp [he.kind_eq])).trans he.kind_eq
    have hfront := hfg'.depictsAll h.sound.laid hs tx
      (h.clear hs fun m hm => by simp [hlayout', hm]) htx
    have hbehind := hfg'.depictsAll h.sound.laid hs ty
      (h.clear hs fun m hm => by simp [hlayout', hm]) hty
    exact hfront.append ⟨hn, hy, hbehind⟩

variable [ByteCodec]

theorem Forest.readValue_reads (type : ValueType) (j : Json) (f : Forest) :
    Passes (readValue type j) f (fun v g => g = f ∧ Value.ofJson? type j = some v)
      (Value.ofJson? type j = none) := by
  unfold readValue
  split
  · next v hv => exact Passes.pure ⟨rfl, hv⟩
  · next hnone => exact Passes.refuse hnone

theorem Forest.readKeys_reads (hs : ctx.schema.Built) (hnode : ctx.schema.nodes[t]? = some node)
    (list : String) (fields : Json.Members) {keys : List SchemaId}
    (hkeys : ∀ key ∈ keys, key ∈ node.keys) (f : Forest) :
    Passes (readKeys ctx list fields keys) f
      (fun values g => g = f ∧ keys.mapM (ctx.schema.readKey fields) = some values)
      (keys.mapM (ctx.schema.readKey fields) = none) := by
  induction keys with
  | nil => exact Passes.pure ⟨rfl, rfl⟩
  | cons key keys ih =>
    obtain ⟨m, type, hm, hkind, -⟩ := hs.key hnode (hkeys key List.mem_cons_self)
    have htype : m.valueType? = some type := by simp [SchemaNode.valueType?, hkind]
    have hrest := ih fun key' hkey' => hkeys key' (List.mem_cons_of_mem _ hkey')
    refine Passes.bind_look_ok (Schema.get_eq_ok.2 hm) ?_
    cases hfield : fields.get? m.name with
    | none => exact Passes.refuse (by simp [Schema.readKey, hm, hfield])
    | some j =>
      have hread : ctx.schema.readKey fields key = Value.ofJson? type j := by
        simp [Schema.readKey, hm, hfield, htype]
      simp only [htype]
      refine Passes.bind (readValue_reads type j f) ?_ fun hnone => by simp [hread, hnone]
      rintro v f ⟨rfl, hv⟩
      refine Passes.bind hrest ?_ fun hnone => by simp [hnone]
      rintro vs _ ⟨rfl, hvs⟩
      exact Passes.pure ⟨rfl, by simp [hread, hv, hvs]⟩

namespace Forest.Trailing

section

variable (h : Trailing ctx f p t node old xs) (hs : ctx.schema.Built) (hkey : node.isKey = false)

include h hs hkey

theorem importTerm_reads {type : ValueType} (htype : node.valueType? = some type) (j : Json) :
    Passes (importTerm ctx p t type j) f
      (fun _ g => ∃ v, Value.ofJson? type j = some v ∧
        Trailing ctx g p t node old (node.place (.leaf v) xs))
      (∀ v, Value.ofJson? type j = some v → ctx.hasRoom node (xs.length + 1) = false) := by
  refine Passes.bind (readValue_reads type j f) ?_ fun hnone v hv => by cases hnone.symm.trans hv
  rintro v f ⟨rfl, hv⟩
  have hborn : Passes (createTerm ctx t v) f
      (fun n g => Born ctx f t [] n g ∧ g.valueAt n = some v) False := by
    refine (createTerm_born h.isSound hs h.nodeOf v).ensures.mono fun r g hr => ?_
    cases r with
    | ok n => exact ⟨hr.1, hr.2.1⟩
    | error _ => exact hr (by rw [htype, Value.type_of_ofJson? hv])
  refine Passes.bind hborn ?_ False.elim
  rintro n g ⟨hborn, hvalue⟩
  refine Passes.bind (h.enter hs hkey hborn) (fun _ g' he => Passes.pure ⟨v, hv, ?_⟩)
    fun hfull _ _ => hfull
  have hdepicts := he.depicts
  rw [hvalue, keyLeaves, List.zipWith_nil_right] at hdepicts
  refine he.finish h hs (.refl _ _) he.isSound hdepicts ?_
  rw [hvalue, keyLeaves, List.zipWith_nil_right]
  rfl

theorem importTerms_reads {type : ValueType} (htype : node.valueType? = some type)
    (js : List Json) :
    Passes (importTerms ctx p t type js) f
      (fun _ g => ∃ vs, js.mapM (Value.ofJson? type) = some vs ∧
        Trailing ctx g p t node old (node.placeAll xs (vs.map Tree.leaf)))
      (∀ vs, js.mapM (Value.ofJson? type) = some vs →
        ctx.hasRoom node (xs.length + vs.length) = false) := by
  induction js generalizing f xs with
  | nil => exact Passes.pure ⟨[], rfl, h⟩
  | cons j js ih =>
    refine Passes.bind (h.importTerm_reads hs hkey htype j) ?_ fun hfull vs hvs => ?_
    · rintro n g ⟨v, hv, hg⟩
      refine Passes.bind (ih hg) ?_ fun hfull vs hvs => ?_
      · rintro ns g' ⟨vs, hvs, hg'⟩
        exact Passes.pure ⟨v :: vs, by simp [hv, hvs], hg'⟩
      · obtain _ | ⟨hv', hvs'⟩ := mapM_eq_some.1 hvs
        have hroom := hfull _ (mapM_eq_some.2 hvs')
        rw [SchemaNode.length_place] at hroom
        rwa [List.length_cons, ← Nat.add_assoc, Nat.add_right_comm]
    · obtain _ | ⟨hv', hvs'⟩ := mapM_eq_some.1 hvs
      have hroom := hfull _ hv'
      exact Context.noRoom_mono (by rw [List.length_cons]; omega) hroom

end

section

variable (h : Trailing ctx f p t node old []) (hs : ctx.schema.Built) (hkey : node.isKey = false)

include h hs hkey

theorem importFlat_reads (j : Json) :
    Passes (importFlat ctx p t node j) f
      (fun _ g => ∃ xs, ctx.readFlat node j = some xs ∧ Trailing ctx g p t node old xs)
      (ctx.readFlat node j = none) := by
  unfold importFlat
  split
  · next type hkind =>
    have htype : node.valueType? = some type := by simp [SchemaNode.valueType?, hkind]
    rw [if_neg (by simp [hkey]), Context.readFlat_leaf hkind]
    refine Passes.bind (h.importTerm_reads hs hkey htype j) ?_ fun hfull => ?_
    · rintro n g ⟨v, hv, hg⟩
      rw [SchemaNode.place_nil] at hg
      exact Passes.pure ⟨[.leaf v], by rw [hv]; rfl, hg⟩
    · cases hv : Value.ofJson? type j with
      | none => rfl
      | some v => cases (hfull v hv).symm.trans (Context.hasRoom_one ctx node)
  · next type hkind =>
    have htype : node.valueType? = some type := by simp [SchemaNode.valueType?, hkind]
    split
    · next items =>
      rw [Context.readFlat_items hkind]
      refine (h.importTerms_reads hs hkey htype items).mono ?_ fun hfull => ?_
      · rintro ns g ⟨vs, hvs, hg⟩
        rw [SchemaNode.placeAll_nil] at hg
        exact ⟨_, by rw [hvs, Option.bind_some, hg.arrange?_eq], hg⟩
      · cases hvs : items.mapM (Value.ofJson? type) with
        | none => rfl
        | some vs =>
          have hroom := hfull vs hvs
          rw [List.length_nil, Nat.zero_add, ← List.length_map Tree.leaf] at hroom
          exact Context.arrange?_eq_none hroom
    · exact Passes.refuse (by unfold Context.readFlat; split <;> simp_all)
  · next hkind =>
    -- the container is created and linked before it turns out that there is no object
    have hrefused : ∀ {α : Type} (op : Edit α) (g : Forest),
        Passes op g (fun _ _ => True) (ctx.readFlat node j = none) := by
      intro α op g r g' _
      cases r with
      | ok _ => trivial
      | error _ => simp [Context.readFlat, hkind]
    exact (hrefused _ f).bind (fun _ g _ => (hrefused _ g).bind
      (fun _ _ _ => Passes.refuse (by simp [Context.readFlat, hkind])) id) id
  · next hkind => exact Passes.refuse (by simp [Context.readFlat, hkind])

end

theorem enter_reads {R : List NodeId → Forest → Prop} {why : Prop} {next : Edit (List NodeId)}
    {members : List (String × Json)} (h : Trailing ctx f p t node old xs) (hs : ctx.schema.Built)
    (hkey : node.isKey = false) (hinner : node.valueType? = none)
    (hborn : Born ctx f t values n g)
    (hread : ∀ g, IsSound ctx g → g.kind? n = some t →
      (∀ m ∈ g.layout (some n), ∃ u ∈ node.keys, g.kind? m = some u) →
      Passes (importMembers ctx (some n) (some t) members) g
        (fun _ g' => ∃ below, ctx.readMembers (some t) members = some below ∧
          ∃ ns, g'.layout (some n) = g.layout (some n) ++ ns ∧ Bears g' ns below)
        (ctx.readMembers (some t) members = none))
    (hnext : ∀ g' below, ctx.readMembers (some t) members = some below →
      Trailing ctx g' p t node old
        (node.place (.node none (keyLeaves node.keys values ++ below)) xs) →
      Passes next g' R why)
    (hfull : ctx.hasRoom node (xs.length + 1) = false → why)
    (hnone : ctx.readMembers (some t) members = none → why) :
    Passes (do
      linkNew ctx p n
      let _ ← importMembers ctx (some n) (some t) members
      next) g R why := by
  refine Passes.bind (h.enter hs hkey hborn) (fun _ g₁ he => ?_) hfull
  have hlaid := (isSound_iff.1 he.isSound).1.laid
  have hvalue : ∀ g, IsSound ctx g → g.kind? n = some t → g.valueAt n = none := fun g hg hn =>
    (isSound_iff.1 hg).1.laid.no_value hn h.nodeOf hinner
  have hdepicts := he.depicts
  rw [hvalue g hborn.isSound hborn.kind_eq] at hdepicts
  obtain ⟨-, hleaves⟩ := hdepicts
  have hkeys : ∀ m ∈ g₁.layout (some n), ∃ u ∈ node.keys, g₁.kind? m = some u := by
    intro m hm
    obtain ⟨u, hu, hkind⟩ := hleaves.kind_mem m hm
    exact ⟨u, keyLeaves_fst hu, hkind⟩
  have hgrows := (importMembers_grows hs (Schema.isSome_of_node h.nodeOf) members
    he.isSound (alive_of_kind? he.kind_eq) rfl).ensures
  refine Passes.bind ((hread g₁ he.isSound he.kind_eq hkeys).and_ensures hgrows) ?_ hnone
  rintro _ g' ⟨⟨below, hbelow, ns, hlayout, hns⟩, hg', hgg'⟩
  have hclear : ∀ m ∈ g₁.layout (some n), Extends.Clear g₁ (some n) m := fun m hm =>
    Extends.clear_of_mem hlaid hs hm
  -- members that are read are none of the keys
  have hother : ∀ u ∈ node.keys, u ∉ below.map Prod.fst := by
    intro u hu hmem
    obtain ⟨m, hm, hnokey, -⟩ := Context.readMembers_fst hs (Schema.isSome_of_node h.nodeOf) hbelow
      hmem
    exact hs.noKey_of_isKey hm hnokey _ _ h.nodeOf hu
  have hbears : Bears g' (g'.layout (some n)) (keyLeaves node.keys values ++ below) := by
    rw [hlayout]
    refine (hgg'.bears hlaid hs _ hclear hleaves).append hns fun u hu m hm => ?_
    obtain ⟨u', hu', hkind⟩ := hns.kind_mem m hm
    simp only [isOf, hkind, Option.some.injEq, decide_eq_false_iff_not]
    rintro rfl
    exact hother u' (keyLeaves_fst hu) hu'
  have hn : g'.kind? n = some t := (hgg'.kind n (by simp [he.kind_eq])).trans he.kind_eq
  refine hnext g' below hbelow (he.finish h hs hgg' hg' ⟨hvalue g' hg' hn, hbears⟩ ?_)
  rw [hvalue g hborn.isSound hborn.kind_eq, Tree.row_append hother]

end Forest.Trailing

namespace Forest

theorem importMember_skips (hnode : ctx.schema.nodes[t]? = some node) {type : ValueType}
    (hkind : node.kind = .leaf type) (hkey : node.isKey = true) (hp : p.isSome) (j : Json)
    (f : Forest) : Passes (importMember ctx p t j) f (fun _ g => g = f) False := by
  have hflat : ∀ j, Passes (importFlat ctx p t node j) f (fun _ g => g = f) False := by
    intro j
    simp only [importFlat, hkind]
    rw [if_pos ⟨hkey, hp⟩]
    exact Passes.pure rfl
  have hget := Schema.get_eq_ok.2 hnode
  cases j with
  | obj members =>
    rw [importMember]
    refine Passes.bind_look_ok hget ?_
    simp only [hkind]
    exact hflat _
  | arr items =>
    rw [importMember]
    refine Passes.bind_look_ok hget ?_
    simp only [hkind]
    exact hflat _
  | null => exact Passes.bind_look_ok hget (hflat _)
  | bool b => exact Passes.bind_look_ok hget (hflat _)
  | num n => exact Passes.bind_look_ok hget (hflat _)
  | str text => exact Passes.bind_look_ok hget (hflat _)

theorem createList_reads (h : IsSound ctx f) (hs : ctx.schema.Built)
    (hnode : ctx.schema.nodes[t]? = some node) (hkind : node.kind = .list node.keys)
    {fields : Json.Members} (hvalues : node.keys.mapM (ctx.schema.readKey fields) = some values) :
    Passes (createList ctx t values) f (fun n g => Born ctx f t values n g) False := by
  have hread := mapM_eq_some.1 hvalues
  refine (createList_born h hs hnode values).ensures.mono fun r g hr => ?_
  cases r with
  | ok n => exact hr.1
  | error _ =>
    refine hr ⟨hkind, hread.length_eq, fun x hx => ?_⟩
    obtain ⟨m, -, hm, htype, -⟩ := Schema.readKey_eq_some (List.forall₂_zip hread hx)
    exact ⟨m, hm, htype⟩

end Forest

section Members

variable (hs : ctx.schema.Built)

include hs

mutual

/-- The instances that a member of an object stands for are put behind the old children, and they
hold what is read from it; if this is refused, it cannot be read. -/
theorem Forest.importMember_reads {t : SchemaId} {node : SchemaNode} (hkey : node.isKey = false) :
    (j : Json) → j.distinct = true → ∀ {f : Forest} {p : Option NodeId} {old : List NodeId},
      Trailing ctx f p t node old [] → Passes (importMember ctx p t j) f
        (fun _ g => ∃ xs, ctx.readMember t node j = some xs ∧ Trailing ctx g p t node old xs)
        (ctx.readMember t node j = none)
  | .obj members, hj, f, p, old, h => by
    rw [importMember]
    refine Passes.bind_look_ok (Schema.get_eq_ok.2 h.nodeOf) ?_
    split
    · next hkind =>
      have hinner : node.valueType? = none := by simp [SchemaNode.valueType?, hkind]
      obtain ⟨hnd, hmembers⟩ := Json.distinct_obj.1 hj
      rw [Context.readMember_container hkind]
      refine Passes.bind (createContainer_reads h.isSound hs h.nodeOf hkind)
        (fun n g hborn => ?_) False.elim
      refine h.enter_reads hs hkey hinner hborn ?_ ?_ ?_ ?_
      · intro g hg hn hkeys
        refine importMembers_reads members hnd hmembers hg (alive_of_kind? hn) hn.symm ?_
        intro m hm
        obtain ⟨u, hu, -⟩ := hkeys m hm
        simp [SchemaNode.keys, hkind] at hu
      · intro g' below hbelow hg'
        rw [keyLeaves, List.zipWith_nil_right, List.nil_append, SchemaNode.place_nil] at hg'
        exact Passes.pure ⟨_, by rw [hbelow]; rfl, hg'⟩
      · intro hfull
        cases hfull.symm.trans (Context.hasRoom_one ctx node)
      · intro hnone
        rw [hnone]
        rfl
    · next hkind =>
      rw [Context.readMember_obj hkind]
      exact h.importFlat_reads hs hkey _
  | .arr items, hj, f, p, old, h => by
    rw [importMember]
    refine Passes.bind_look_ok (Schema.get_eq_ok.2 h.nodeOf) ?_
    split
    · next keys hkind =>
      have hkeys : node.keys = keys := by simp [SchemaNode.keys, hkind]
      subst hkeys
      rw [Context.readMember_list hkind]
      refine (importEntries_reads hkey hkind node.name items hj h).mono ?_ fun hfull => ?_
      · rintro ns g ⟨ys, hys, hg⟩
        rw [SchemaNode.placeAll_nil] at hg
        exact ⟨_, by rw [hys, Option.bind_some, hg.arrange?_eq], hg⟩
      · cases hys : ctx.readEntries t node.keys items with
        | none => rfl
        | some ys =>
          have hroom := hfull ys hys
          rw [List.length_nil, Nat.zero_add] at hroom
          exact Context.arrange?_eq_none hroom
    · next hkind =>
      rw [Context.readMember_arr hkind]
      exact h.importFlat_reads hs hkey _
  | .null, _, f, p, old, h =>
    Passes.bind_look_ok (Schema.get_eq_ok.2 h.nodeOf) (h.importFlat_reads hs hkey _)
  | .bool _, _, f, p, old, h =>
    Passes.bind_look_ok (Schema.get_eq_ok.2 h.nodeOf) (h.importFlat_reads hs hkey _)
  | .num _, _, f, p, old, h =>
    Passes.bind_look_ok (Schema.get_eq_ok.2 h.nodeOf) (h.importFlat_reads hs hkey _)
  | .str _, _, f, p, old, h =>
    Passes.bind_look_ok (Schema.get_eq_ok.2 h.nodeOf) (h.importFlat_reads hs hkey _)

theorem Forest.importEntries_reads {t : SchemaId} {node : SchemaNode} (hkey : node.isKey = false)
    (hkind : node.kind = .list node.keys) (name : String) :
    (items : List Json) → Json.distinctItems items = true → ∀ {f : Forest} {p : Option NodeId}
      {old : List NodeId} {xs : List Tree}, Trailing ctx f p t node old xs →
      Passes (importEntries ctx p t name node.keys items) f
        (fun _ g => ∃ ys, ctx.readEntries t node.keys items = some ys ∧
          Trailing ctx g p t node old (node.placeAll xs ys))
        (∀ ys, ctx.readEntries t node.keys items = some ys →
          ctx.hasRoom node (xs.length + ys.length) = false)
  | [], _, f, p, old, xs, h => Passes.pure ⟨[], rfl, h⟩
  | .obj fields :: rest, hitems, f, p, old, xs, h => by
    have hinner : node.valueType? = none := by simp [SchemaNode.valueType?, hkind]
    obtain ⟨hfields, hrest⟩ := Json.distinctItems_cons.1 hitems
    obtain ⟨hnd, hmembers⟩ := Json.distinct_obj.1 hfields
    have hread : ctx.readEntries t node.keys (.obj fields :: rest) =
        (node.keys.mapM (ctx.schema.readKey fields)).bind fun values =>
          (ctx.readMembers (some t) fields).bind fun below =>
            (ctx.readEntries t node.keys rest).bind fun ys =>
              some (.node none (keyLeaves node.keys values ++ below) :: ys) := rfl
    rw [importEntries]
    refine Passes.bind (readKeys_reads hs h.nodeOf name fields (fun _ => id) f) ?_
      fun hnone ys hys => ?_
    · rintro values f ⟨rfl, hvalues⟩
      refine Passes.bind (createList_reads h.isSound hs h.nodeOf hkind hvalues)
        (fun n g hborn => ?_) False.elim
      rw [hvalues, Option.bind_some] at hread
      refine h.enter_reads hs hkey hinner hborn ?_ ?_ ?_ ?_
      · intro g hg hn hkeys
        refine importMembers_reads fields hnd hmembers hg (alive_of_kind? hn) hn.symm ?_
        intro m hm c n' hc hn' hnokey
        obtain ⟨u, hu, hkind⟩ := hkeys m hm
        cases hc.symm.trans hkind
        cases hs.noKey_of_isKey hn' hnokey _ _ h.nodeOf hu
      · intro g' below hbelow hg'
        rw [hbelow, Option.bind_some] at hread
        refine Passes.bind (importEntries_reads hkey hkind name rest hrest hg') ?_
          fun hfull ys hys => ?_
        · rintro ns g'' ⟨ys, hys, hg''⟩
          exact Passes.pure ⟨.node none (keyLeaves node.keys values ++ below) :: ys,
            by rw [hread, hys]; rfl, hg''⟩
        · obtain ⟨zs, hzs, heq⟩ := Option.bind_eq_some_iff.1 (hread.symm.trans hys)
          cases heq
          have hroom := hfull zs hzs
          rw [SchemaNode.length_place] at hroom
          rwa [List.length_cons, ← Nat.add_assoc, Nat.add_right_comm]
      · intro hfull ys hys
        obtain ⟨below, -, hys⟩ := Option.bind_eq_some_iff.1 (hread.symm.trans hys)
        obtain ⟨zs, -, heq⟩ := Option.bind_eq_some_iff.1 hys
        cases heq
        exact Context.noRoom_mono (by rw [List.length_cons]; omega) hfull
      · intro hnone ys hys
        rw [hread, hnone] at hys
        cases hys
    · rw [hread, hnone] at hys
      cases hys
  | .null :: _, _, f, p, old, xs, h => Passes.refuse nofun
  | .bool _ :: _, _, f, p, old, xs, h => Passes.refuse nofun
  | .num _ :: _, _, f, p, old, xs, h => Passes.refuse nofun
  | .str _ :: _, _, f, p, old, xs, h => Passes.refuse nofun
  | .arr _ :: _, _, f, p, old, xs, h => Passes.refuse nofun

theorem Forest.importMembers_reads {q : Option SchemaId} : (members : List (String × Json)) →
    (members.map Prod.fst).Nodup → Json.distinctMembers members = true →
    ∀ {f : Forest} {p : Option NodeId}, IsSound ctx f → f.Alive p → q = p.bind f.kind? →
      Lacks ctx f p members → Passes (importMembers ctx p q members) f
        (fun _ g => ∃ a, ctx.readMembers q members = some a ∧
          ∃ ns, g.layout p = f.layout p ++ ns ∧ Bears g ns a)
        (ctx.readMembers q members = none)
  | [], _, _, f, p, h, hp, hq, hlacks => Passes.pure ⟨[], rfl, [], by simp, rfl⟩
  | (name, j) :: rest, hnd, hdistinct, f, p, h, hp, hq, hlacks => by
    have hlaid := (isSound_iff.1 h).1.laid
    have hnodes : ∀ i, q = some i → (ctx.schema.nodes[i]?).isSome := hq ▸ isSome_of_kind h
    obtain ⟨hname, hnd'⟩ := List.nodup_cons.1 hnd
    obtain ⟨hj, hrest⟩ := Json.distinctMembers_cons.1 hdistinct
    rw [importMembers]
    refine Passes.bind_look_ok (Schema.child?_ok hnodes name) ?_
    cases hchild : (ctx.schema.listed q).find? (ctx.schema.hasName name) with
    | none => exact Passes.refuse (by simp [Context.readMembers, Schema.named, hchild])
    | some c =>
      obtain ⟨node, hnode, hparent, rfl⟩ := hs.named_eq_some hchild hnodes
      have hlacks' : Lacks ctx f p rest := fun m hm c' n hc' hn hnokey hmem =>
        hlacks m hm c' n hc' hn hnokey (List.mem_cons_of_mem _ hmem)
      rw [Context.readMembers_cons hchild hnode]
      cases hkey : node.isKey with
      | true =>
        obtain ⟨⟨type, hkind⟩, hsome⟩ := hs.leaf_of_isKey hnode hkey
        have hp' : p.isSome := by
          cases p with
          | none => simp [hparent, hq] at hsome
          | some i => rfl
        refine Passes.bind (importMember_skips hnode hkind hkey hp' j f) ?_ False.elim
        rintro _ f rfl
        refine Passes.bind (importMembers_reads rest hnd' hrest h hp hq hlacks') ?_ id
        exact fun _ g hg => Passes.pure hg
      | false =>
        have hf := hlacks.trailing h hp hnode (hparent.trans hq) hkey List.mem_cons_self
        have hgrows := (importMember_grows hs hnode j h hp).ensures
        refine Passes.bind ((importMember_reads hkey j hj hf).and_ensures hgrows) ?_ fun hnone => by
          simp [hnone]
        rintro ns g ⟨⟨xs, hxs, hg⟩, hsound, hfg⟩
        have hgq : q = p.bind g.kind? := hparent.symm.trans hg.parent
        have hgrows' := (importMembers_grows hs hnodes rest hsound hg.alive
          (hgq ▸ hg.alive.isSome_eq)).ensures
        refine Passes.bind ((importMembers_reads rest hnd' hrest hsound hg.alive hgq
          (hg.lacks hlaid hfg hlacks' hname)).and_ensures hgrows') ?_ fun hnone => by simp [hnone]
        rintro ns' g' ⟨⟨a, ha, ms, hlayout, hms⟩, -, hgg'⟩
        have hc : c ∉ a.map Prod.fst := by
          intro hmem
          obtain ⟨n, hn, -, hnamed⟩ := Context.readMembers_fst hs hnodes ha hmem
          cases hnode.symm.trans hn
          exact hname hnamed
        refine Passes.pure ⟨Grove.push c xs a, ?_, hg.join hs hgg' hlayout hms hc⟩
        simp [hxs, ha]

end

/-- A document is imported where nothing is at the top yet: what is there then is what can be read
from it, and it is refused only if it cannot be read. -/
theorem Forest.ofJson_reads (h : IsSound ctx f) (hempty : f.layout none = [])
    {members : List (String × Json)} (hdistinct : (Json.obj members).distinct = true) :
    Passes (ofJson ctx none (.obj members)) f
      (fun _ g => IsSound ctx g ∧
        ∃ a, ctx.readMembers none members = some a ∧ Bears g (g.layout none) a)
      (ctx.readMembers none members = none) := by
  obtain ⟨hnd, hmembers⟩ := Json.distinct_obj.1 hdistinct
  have hlacks : Lacks ctx f none members := by
    intro m hm
    rw [hempty] at hm
    cases hm
  have hgrows := (importMembers_grows hs (t := none) nofun members h f.alive_none rfl).ensures
  refine ((importMembers_reads hs members hnd hmembers h f.alive_none rfl hlacks).and_ensures
    hgrows).mono ?_ id
  rintro _ g ⟨⟨a, ha, ns, hlayout, hns⟩, hsound, -⟩
  rw [hempty, List.nil_append] at hlayout
  exact ⟨hsound, a, ha, hlayout ▸ hns⟩

end Members

end Reading

end InstanceTree
