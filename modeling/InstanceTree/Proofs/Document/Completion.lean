import InstanceTree.Proofs.Document.Accrual
import InstanceTree.Proofs.Document.Demand
import InstanceTree.Proofs.Operations.Slots

namespace InstanceTree

open Edit

namespace Forest

/-- An edit stores `d` elements, as far as there are handles for them; whether it is refused or not,
the forest is sound and has grown out of `f₀` below `p`. -/
def Grows (ctx : Context) (f₀ : Forest) (p : Option NodeId) (d : Nat) {α : Type} (op : Edit α)
    (f : Forest) : Prop :=
  Fits d op f fun _ g => IsSound ctx g ∧ Accrues f₀ p g

/-- An edit meets no fault and changes nothing, and what it gives has a property. -/
def Still {α : Type} (op : Edit α) (f : Forest) (P : α → Prop) : Prop :=
  Lands op f fun r g => g = f ∧ ∀ a, r = .ok a → P a

variable {ctx : Context} {f₀ f : Forest} {p : Option NodeId} {n : NodeId} {α β : Type} {c d : Nat}

theorem alive_of_kind? {t : SchemaId} (hn : f.kind? n = some t) : f.Alive (some n) := by
  obtain ⟨e, he, -⟩ := get?_of_kind? hn
  exact alive_some.2 ⟨e, he⟩

namespace Still

variable {op : Edit α} {next : α → Edit β} {P : α → Prop} {Q : β → Prop}

theorem pure {a : α} (h : P a) : Still (pure a) f P := by
  refine Lands.pure ⟨rfl, ?_⟩
  rintro _ ⟨⟩
  exact h

theorem refuse (why : Refusal) : Still (Edit.refuse why : Edit α) f P := by
  refine Lands.refuse ⟨rfl, ?_⟩
  rintro _ ⟨⟩

theorem bind (h : Still op f P) (hnext : ∀ a, P a → Still (next a) f Q) :
    Still (op >>= next) f Q := by
  refine Lands.bind h ?_ ?_
  · rintro a _ ⟨rfl, ha⟩
    exact hnext a (ha a rfl)
  · rintro _ _ ⟨rfl, -⟩
    refine ⟨rfl, ?_⟩
    rintro _ ⟨⟩

theorem fits (h : Still op f P) : Fits 0 op f fun r g => g = f ∧ ∀ a, r = .ok a → P a :=
  .of_lands h (h.ensures.mono fun _ _ hr _ _ => by rw [hr.1])

end Still

theorem IsSound.accrues_refl (h : IsSound ctx f) (p : Option NodeId) : Accrues f p f :=
  .refl (isSound_iff.1 h).1.laid p

theorem linkNew_draws (h : IsSound ctx f) (hs : ctx.schema.Built) (hp : f.Alive p) {t : SchemaId}
    (hn : f.kind? n = some t) :
    Ensures (linkNew ctx p n) f fun r g => ∀ a, r = .ok a → Draws f [] g := by
  refine (linkNew_lands h hs hp hn).ensures.mono fun r g hr a hok => ?_
  subst hok
  obtain ⟨e, node, xs, ys, -, hplacing, -⟩ := hr
  exact draws_of_bare hplacing.bare_eq

namespace Grows

theorem pure (h : IsSound ctx f) (hf : Accrues f₀ p f) (a : α) :
    Grows ctx f₀ p 0 (pure a : Edit α) f :=
  Fits.pure ⟨h, hf⟩

theorem refuse (h : IsSound ctx f) (hf : Accrues f₀ p f) (why : Refusal) :
    Grows ctx f₀ p d (Edit.refuse why : Edit α) f :=
  Fits.refuse ⟨h, hf⟩

theorem bind {op : Edit α} {next : α → Edit β} (h : Grows ctx f₀ p c op f)
    (hnext : ∀ a g, IsSound ctx g → Accrues f₀ p g → Grows ctx f₀ p d (next a) g) :
    Grows ctx f₀ p (c + d) (op >>= next) f :=
  Fits.bind h (fun a g hg => hnext a g hg.1 hg.2) fun _ _ hg => hg

theorem report {op : Edit α} (h : Grows ctx f₀ p d op f) (k : α → β) :
    Grows ctx f₀ p d (op >>= fun a => Pure.pure (k a)) f :=
  h.bind fun _ _ hg hfg => Grows.pure hg hfg _

theorem bind_still {op : Edit α} {next : α → Edit β} {P : α → Prop} (h : IsSound ctx f)
    (hf : Accrues f₀ p f) (hop : Still op f P)
    (hnext : ∀ a, P a → Grows ctx f₀ p d (next a) f) : Grows ctx f₀ p d (op >>= next) f := by
  rw [← Nat.zero_add d]
  refine Fits.bind hop.fits ?_ ?_
  · rintro a _ ⟨rfl, ha⟩
    exact hnext a (ha a rfl)
  · rintro _ _ ⟨rfl, -⟩
    exact ⟨h, hf⟩

theorem bind_look {view : Forest → Except Fault α} {next : α → Edit β} {a : α}
    (ha : view f = .ok a) (h : Grows ctx f₀ p d (next a) f) :
    Grows ctx f₀ p d (Edit.look view >>= next) f :=
  Fits.bind_look ha h

theorem rebase {op : Edit α} (hf : Accrues f₀ p f) (h : Grows ctx f p d op f) :
    Grows ctx f₀ p d op f :=
  Fits.mono h fun _ _ hg => ⟨hg.1, hf.trans hg.2⟩

theorem nested {op : Edit α} {t : SchemaId} (hf : Accrues f₀ p f) (hnone : f₀.kind? n = none)
    (hn : f.kind? n = some t) (h : Grows ctx f (some n) d op f) : Grows ctx f₀ p d op f := by
  have hlives : f.lives n = true := by simp [lives, hn]
  exact Fits.mono h fun _ _ hg => ⟨hg.1, hf.nested hnone hlives hg.2⟩

theorem link (h : IsSound ctx f) (hs : ctx.schema.Built) (hp : f.Alive p) {op : Edit NodeId}
    {t : SchemaId} {next : NodeId → Edit β}
    (hop : Fits c op f fun r g => ∀ n, r = .ok n → ∃ vs, Born ctx f t vs n g)
    (hstores : Stores op f)
    (hnext : ∀ n g, IsSound ctx g → g.kind? n = some t → f.kind? n = none → Accrues f p g →
      Grows ctx f p d (next n) g) :
    Grows ctx f p (c + d) (do
      let n ← op
      linkNew ctx p n
      next n) f := by
  refine Fits.bind (hop.and_ensures hstores) ?_ ?_
  · intro n g₁ hg₁
    obtain ⟨vs, hborn⟩ := hg₁.1 n rfl
    have hp₁ : g₁.Alive p := (hborn.growth p).alive hp
    have hlink : Fits 0 (linkNew ctx p n) g₁ _ :=
      .of_lands (linkNew_accrues hborn (isSound_iff.1 h).1.laid hs hp) <|
        (linkNew_draws hborn.isSound hs hp₁ hborn.kind_eq).mono fun _ _ hdraws a ha =>
          (hdraws a ha).size_eq (isSound_iff.1 hborn.isSound).1.laid.length_vacant_le
    rw [← Nat.zero_add d]
    refine Fits.bind hlink ?_ ?_
    · intro _ g hg
      obtain ⟨hsound, haccrues, hkind⟩ := hg
      exact hnext n g hsound (hkind rfl) hborn.kind_none haccrues
    · exact fun _ _ hg => ⟨hg.1, hg.2.1⟩
  · intro _ _ hg
    cases hg.2
    exact ⟨h, h.accrues_refl p⟩

theorem ensures {op : Edit α} (h : Grows ctx f₀ p d op f) :
    Ensures op f fun r g => ∀ a, r = .ok a → IsSound ctx g ∧ Extends f₀ p g :=
  (Fits.ensures h).mono fun _ _ hg _ _ => ⟨hg.1, hg.2.toExtends⟩

end Grows

theorem readValue_still [ByteCodec] (type : ValueType) (j : Json) :
    Still (readValue type j) f fun _ => True := by
  unfold readValue
  split
  · exact Still.pure trivial
  · exact Still.refuse _

theorem readKeys_still [ByteCodec] (list : String) (fields : Json.Members) {keys : List SchemaId}
    (hkeys : ∀ key ∈ keys, (ctx.schema.nodes[key]?).isSome) :
    Still (readKeys ctx list fields keys) f fun values => values.length = keys.length := by
  induction keys with
  | nil => exact Still.pure rfl
  | cons key keys ih =>
    obtain ⟨node, hnode⟩ := Option.isSome_iff_exists.1 (hkeys key (by simp))
    refine Lands.bind_look (Schema.get_eq_ok.2 hnode) ?_
    cases fields.get? node.name with
    | none => exact Still.refuse _
    | some j =>
      cases node.valueType? with
      | none => exact Still.refuse _
      | some type =>
        have hrest := ih fun key' hkey' => hkeys key' (by simp [hkey'])
        exact (readValue_still type j).bind fun v _ => hrest.bind fun _ hlen =>
          Still.pure (congrArg (· + 1) hlen)

section Import

variable (hs : ctx.schema.Built)

include hs

section Node

variable {t : SchemaId} {node : SchemaNode} (hnode : ctx.schema.nodes[t]? = some node)
  (h : IsSound ctx f) (hp : f.Alive p)

include hnode h hp

theorem createContainer_grows {next : NodeId → Edit β}
    (hnext : ∀ n g, IsSound ctx g → g.kind? n = some t → f.kind? n = none → Accrues f p g →
      Grows ctx f p d (next n) g) :
    Grows ctx f p (1 + d) (do
      let n ← createContainer ctx t
      linkNew ctx p n
      next n) f := by
  have hborn : Fits 1 (createContainer ctx t) f fun r g =>
      ∀ n, r = .ok n → ∃ vs, Born ctx f t vs n g := by
    refine (createContainer_born h hs hnode).mono fun r g hr => ?_
    rintro n rfl
    exact ⟨[], hr.1⟩
  exact Grows.link h hs hp hborn (createContainer_stores (isSound_iff.1 h).1.laid t) hnext

theorem createList_grows (values : List Value) {next : NodeId → Edit β}
    (hnext : ∀ n g, IsSound ctx g → g.kind? n = some t → f.kind? n = none → Accrues f p g →
      Grows ctx f p d (next n) g) :
    Grows ctx f p (1 + values.length + d) (do
      let n ← createList ctx t values
      linkNew ctx p n
      next n) f := by
  have hborn : Fits (1 + values.length) (createList ctx t values) f fun r g =>
      ∀ n, r = .ok n → ∃ vs, Born ctx f t vs n g := by
    refine (createList_born h hs hnode values).mono fun r g hr => ?_
    rintro n rfl
    exact ⟨values, hr.1⟩
  have hstores := createList_stores (isSound_iff.1 h).1.laid hs t values
  exact Grows.link h hs hp hborn hstores hnext

variable [ByteCodec]

theorem importTerm_grows (type : ValueType) (j : Json) :
    Grows ctx f p 1 (importTerm ctx p t type j) f := by
  refine Grows.bind_still h (h.accrues_refl p) (readValue_still type j) fun v _ => ?_
  have hborn : Fits 1 (createTerm ctx t v) f fun r g =>
      ∀ n, r = .ok n → ∃ vs, Born ctx f t vs n g := by
    refine (createTerm_born h hs hnode v).mono fun r g hr => ?_
    rintro n rfl
    exact ⟨[], hr.1⟩
  have hstores := createTerm_stores (isSound_iff.1 h).1.laid t v
  exact Grows.link h hs hp hborn hstores fun n g hg _ _ hfg => Grows.pure hg hfg n

omit h hp in
theorem importTerms_grows (type : ValueType) (js : List Json) (h : IsSound ctx f)
    (hp : f.Alive p) : Grows ctx f p js.length (importTerms ctx p t type js) f := by
  induction js generalizing f with
  | nil => exact Grows.pure h (h.accrues_refl p) []
  | cons j js ih =>
    rw [List.length_cons, Nat.add_comm]
    refine (importTerm_grows hs hnode h hp type j).bind fun n g hg hfg => ?_
    exact ((ih hg (hfg.alive hp)).rebase hfg).report _

theorem importFlat_grows (j : Json) :
    Grows ctx f p (node.demand p.isSome j) (importFlat ctx p t node j) f := by
  unfold importFlat SchemaNode.demand
  cases node.kind with
  | leaf type =>
    by_cases hskip : node.isKey ∧ p.isSome
    · simp only [if_pos hskip]
      exact Grows.pure h (h.accrues_refl p) []
    · simp only [if_neg hskip]
      exact (importTerm_grows hs hnode h hp type j).report _
  | leafList type =>
    cases j with
    | arr items => exact importTerms_grows hs hnode type items h hp
    | _ => exact Grows.refuse h (h.accrues_refl p) _
  | container =>
    exact createContainer_grows (d := 0) hs hnode h hp fun _ _ hg _ _ hfg => Grows.refuse hg hfg _
  | list keys => exact Grows.refuse h (h.accrues_refl p) _

end Node

variable [ByteCodec]

mutual

theorem importMember_grows {t : SchemaId} {node : SchemaNode}
    (hnode : ctx.schema.nodes[t]? = some node) : (j : Json) → ∀ {f : Forest} {p : Option NodeId},
      IsSound ctx f → f.Alive p →
      Grows ctx f p (ctx.schema.memberDemand p.isSome t node j) (importMember ctx p t j) f
  | .obj members, f, p, h, hp => by
    rw [importMember, Schema.memberDemand]
    refine Grows.bind_look (Schema.get_eq_ok.2 hnode) ?_
    cases node.kind with
    | container =>
      refine createContainer_grows hs hnode h hp fun n g hg hn hnone hfg => ?_
      have hmembers := importMembers_grows (Schema.isSome_of_node hnode) members hg
        (alive_of_kind? hn) rfl
      exact (hmembers.nested hfg hnone hn).report _
    | leaf | leafList | list => exact importFlat_grows hs hnode h hp _
  | .arr items, f, p, h, hp => by
    rw [importMember, Schema.memberDemand]
    refine Grows.bind_look (Schema.get_eq_ok.2 hnode) ?_
    cases hkind : node.kind with
    | list keys =>
      refine importEntries_grows hnode node.name ?_ items h hp
      intro key hkey
      obtain ⟨m, type, hm, -⟩ :=
        hs.key hnode (show key ∈ node.keys by simpa [SchemaNode.keys, hkind])
      simp [hm]
    | container | leaf | leafList => exact importFlat_grows hs hnode h hp _
  | .null, f, p, h, hp =>
    Grows.bind_look (Schema.get_eq_ok.2 hnode) (importFlat_grows hs hnode h hp _)
  | .bool _, f, p, h, hp =>
    Grows.bind_look (Schema.get_eq_ok.2 hnode) (importFlat_grows hs hnode h hp _)
  | .num _, f, p, h, hp =>
    Grows.bind_look (Schema.get_eq_ok.2 hnode) (importFlat_grows hs hnode h hp _)
  | .str _, f, p, h, hp =>
    Grows.bind_look (Schema.get_eq_ok.2 hnode) (importFlat_grows hs hnode h hp _)

theorem importEntries_grows {t : SchemaId} {node : SchemaNode}
    (hnode : ctx.schema.nodes[t]? = some node) (name : String) {keys : List SchemaId}
    (hkeys : ∀ key ∈ keys, (ctx.schema.nodes[key]?).isSome) :
    (items : List Json) → ∀ {f : Forest} {p : Option NodeId}, IsSound ctx f → f.Alive p →
      Grows ctx f p (ctx.schema.entriesDemand t keys items)
        (importEntries ctx p t name keys items) f
  | [], f, p, h, hp => Grows.pure h (h.accrues_refl p) _
  | .obj fields :: rest, f, p, h, hp => by
    rw [importEntries, Schema.entriesDemand]
    refine Grows.bind_still h (h.accrues_refl p) (readKeys_still name fields hkeys) ?_
    intro values hlen
    rw [← hlen]
    refine createList_grows hs hnode h hp values fun n g hg hn hnone hfg => ?_
    have hmembers := importMembers_grows (Schema.isSome_of_node hnode) fields hg
      (alive_of_kind? hn) rfl
    refine (hmembers.nested hfg hnone hn).bind fun _ g' hg' hfg' => ?_
    have hrest := importEntries_grows hnode name hkeys rest hg' (hfg'.alive hp)
    exact (hrest.rebase hfg').report _
  | .null :: _, f, p, h, hp => Grows.refuse h (h.accrues_refl p) _
  | .bool _ :: _, f, p, h, hp => Grows.refuse h (h.accrues_refl p) _
  | .num _ :: _, f, p, h, hp => Grows.refuse h (h.accrues_refl p) _
  | .str _ :: _, f, p, h, hp => Grows.refuse h (h.accrues_refl p) _
  | .arr _ :: _, f, p, h, hp => Grows.refuse h (h.accrues_refl p) _

theorem importMembers_grows {t : Option SchemaId}
    (ht : ∀ i, t = some i → (ctx.schema.nodes[i]?).isSome) :
    (members : List (String × Json)) → ∀ {f : Forest} {p : Option NodeId}, IsSound ctx f →
      f.Alive p → p.isSome = t.isSome →
      Grows ctx f p (ctx.schema.membersDemand t members) (importMembers ctx p t members) f
  | [], f, p, h, hp, hpt => Grows.pure h (h.accrues_refl p) _
  | (name, j) :: rest, f, p, h, hp, hpt => by
    rw [importMembers]
    refine Grows.bind_look (Schema.child?_ok ht name) ?_
    cases hchild : (ctx.schema.listed t).find? (ctx.schema.hasName name) with
    | none => exact Grows.refuse h (h.accrues_refl p) _
    | some c =>
      obtain ⟨n, hn, -⟩ := hs.named_eq_some hchild ht
      rw [Schema.membersDemand_cons hchild hn, ← hpt]
      refine (importMember_grows hn j h hp).bind fun _ g hg hfg => ?_
      have hrest := importMembers_grows ht rest hg (hfg.alive hp) hpt
      exact (hrest.rebase hfg).report _

end

/-- A document can be read below every live element, if there are handles for what it stores.
Whether it is refused or not, the forest grows below that element only. -/
theorem ofJson_grows (h : IsSound ctx f) (hp : f.Alive p) (j : Json) :
    Grows ctx f p (ctx.schema.demand (p.bind f.kind?) j) (ofJson ctx p j) f := by
  cases j with
  | obj members =>
    cases p with
    | none => exact importMembers_grows hs (t := none) nofun members h hp rfl
    | some i =>
      obtain ⟨e, he⟩ := hp i rfl
      obtain ⟨node, hnode, -⟩ := (isSound_iff.1 h).1.laid.typed i e he
      have hkind : (some i).bind f.kind? = some e.schema := by simp [kind?, he]
      rw [ofJson, mapM_look_some (fun i f => schemaOf f i), bind_assoc, hkind]
      refine Grows.bind_look (schemaOf_of_get? he) ?_
      exact importMembers_grows hs (Schema.isSome_of_node hnode) members h hp rfl
  | _ => exact Grows.refuse h (h.accrues_refl p) _

end Import

end Forest

end InstanceTree
