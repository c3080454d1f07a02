import InstanceTree.Proofs.Document.Counting
import InstanceTree.Proofs.Document.Import
import InstanceTree.Proofs.Document.Normal
import InstanceTree.Proofs.Operations.Runs

namespace InstanceTree

open Edit Forest

/-- Two objects are the same but for the order of one array of a leaf-list in system order, which
may stand anywhere inside. -/
inductive Schema.Shuffled (s : Schema) : Option SchemaId → Json.Members → Json.Members → Prop
  | here {q : Option SchemaId} {name : String} {c : SchemaId} {node : SchemaNode}
      {type : ValueType} {items items' : List Json} {rest : Json.Members} :
      s.named q name = some c → s.nodes[c]? = some node → node.kind = .leafList type →
      node.orderedBy = .system → items.Perm items' →
      Shuffled s q ((name, .arr items) :: rest) ((name, .arr items') :: rest)
  | container {q : Option SchemaId} {name : String} {c : SchemaId} {node : SchemaNode}
      {members members' rest : Json.Members} :
      s.named q name = some c → s.nodes[c]? = some node → node.kind = .container →
      Shuffled s (some c) members members' →
      Shuffled s q ((name, .obj members) :: rest) ((name, .obj members') :: rest)
  | entry {q : Option SchemaId} {name : String} {c : SchemaId} {node : SchemaNode}
      {keys : List SchemaId} {front behind : List Json} {fields fields' rest : Json.Members} :
      s.named q name = some c → s.nodes[c]? = some node → node.kind = .list keys →
      Shuffled s (some c) fields fields' →
      Shuffled s q ((name, .arr (front ++ .obj fields :: behind)) :: rest)
        ((name, .arr (front ++ .obj fields' :: behind)) :: rest)
  | later {q : Option SchemaId} {member : String × Json} {rest rest' : Json.Members} :
      Shuffled s q rest rest' → Shuffled s q (member :: rest) (member :: rest')

namespace Schema.Shuffled

variable {s : Schema} {q : Option SchemaId} {members members' : Json.Members}

theorem names_eq (h : s.Shuffled q members members') :
    members'.map Prod.fst = members.map Prod.fst := by
  induction h with
  | later _ ih => simp only [List.map_cons, ih]
  | _ => rfl

theorem distinct_obj (hnames : members'.map Prod.fst = members.map Prod.fst)
    (hmembers : Json.distinctMembers members = true → Json.distinctMembers members' = true)
    (h : (Json.obj members).distinct = true) : (Json.obj members').distinct = true := by
  obtain ⟨hnd, hdistinct⟩ := Json.distinct_obj.1 h
  exact Json.distinct_obj.2 ⟨hnames ▸ hnd, hmembers hdistinct⟩

theorem distinctMembers (h : s.Shuffled q members members')
    (hdistinct : Json.distinctMembers members = true) :
    Json.distinctMembers members' = true := by
  induction h with
  | here _ _ _ _ hperm =>
    obtain ⟨hitems, hrest⟩ := Json.distinctMembers_cons.1 hdistinct
    refine Json.distinctMembers_cons.2 ⟨Json.distinctItems_iff.2 fun j hj => ?_, hrest⟩
    exact Json.distinctItems_iff.1 hitems j (hperm.mem_iff.2 hj)
  | container _ _ _ h ih =>
    obtain ⟨hmembers, hrest⟩ := Json.distinctMembers_cons.1 hdistinct
    exact Json.distinctMembers_cons.2 ⟨distinct_obj h.names_eq ih hmembers, hrest⟩
  | entry _ _ _ h ih =>
    obtain ⟨hitems, hrest⟩ := Json.distinctMembers_cons.1 hdistinct
    refine Json.distinctMembers_cons.2 ⟨Json.distinctItems_iff.2 fun j hj => ?_, hrest⟩
    have hold := fun j => Json.distinctItems_iff.1 hitems j
    rcases List.mem_append.1 hj with hj | hj
    · exact hold j (by simp [hj])
    · rcases List.mem_cons.1 hj with rfl | hj
      · exact distinct_obj h.names_eq ih (hold _ (by simp))
      · exact hold j (by simp [hj])
  | later _ ih =>
    obtain ⟨hj, hrest⟩ := Json.distinctMembers_cons.1 hdistinct
    exact Json.distinctMembers_cons.2 ⟨hj, ih hrest⟩

theorem distinct (h : s.Shuffled q members members')
    (hdistinct : (Json.obj members).distinct = true) : (Json.obj members').distinct = true :=
  distinct_obj h.names_eq h.distinctMembers hdistinct

theorem readKey_eq (h : s.Shuffled q members members') (hs : s.Built)
    (hq : ∀ i, q = some i → (s.nodes[i]?).isSome) {key : SchemaId} {node : SchemaNode}
    (hkey : s.nodes[key]? = some node) (hparent : node.parent = q) {type : ValueType}
    (hleaf : node.kind = .leaf type) : s.readKey members' key = s.readKey members key := by
  have hget : Json.Members.get? members' node.name = Json.Members.get? members node.name := by
    have hother : ∀ {name c} {n : SchemaNode}, s.named q name = some c → s.nodes[c]? = some n →
        n.kind ≠ .leaf type → name ≠ node.name := by
      rintro name c n hc hn hkind rfl
      obtain ⟨n', hn', hparent', hname⟩ := hs.named_eq_some hc hq
      cases hn.symm.trans hn'
      cases hs.name_inj hn hkey (hparent'.trans hparent.symm) hname
      cases hn.symm.trans hkey
      exact hkind hleaf
    induction h with
    | here hc hn hkind _ _ =>
      have hne := hother hc hn (by simp [hkind])
      simp only [Json.Members.get?, if_neg hne]
    | container hc hn hkind _ _ =>
      have hne := hother hc hn (by simp [hkind])
      simp only [Json.Members.get?, if_neg hne]
    | entry hc hn hkind _ _ =>
      have hne := hother hc hn (by simp [hkind])
      simp only [Json.Members.get?, if_neg hne]
    | @later q member _ _ _ ih =>
      obtain ⟨name, j⟩ := member
      simp only [Json.Members.get?, ih hq hparent hother]
  simp only [readKey, hkey, Option.bind_eq_bind, Option.bind_some, hget]

end Schema.Shuffled

/-- Sorting leaves no trace of the order before, if no two instances rank alike. -/
theorem SchemaNode.arrange_perm {node : SchemaNode} (hsorted : node.sortKind?.isSome)
    {xs ys : List Tree} (hperm : xs.Perm ys)
    (hsame : ∀ x ∈ xs, ∀ y ∈ ys, node.mayPrecede x y = true → node.mayPrecede y x = true → x = y) :
    node.arrange xs = node.arrange ys := by
  rw [arrange, if_pos hsorted, arrange, if_pos hsorted]
  have hsort := fun l => List.pairwise_mergeSort node.mayPrecede_trans node.mayPrecede_total l
  have hperm' := fun l => List.mergeSort_perm l node.mayPrecede
  refine List.Perm.eq_of_pairwise (fun x y hx hy => ?_) (hsort xs) (hsort ys)
    ((hperm' xs).trans (hperm.trans (hperm' ys).symm))
  exact hsame x (List.mem_mergeSort.1 hx) y (List.mem_mergeSort.1 hy)

theorem SchemaNode.leaf_eq {node : SchemaNode} (hkeys : node.keys = []) {v w : Value}
    (htype : v.type = w.type) (hvw : node.mayPrecede (.leaf v) (.leaf w) = true)
    (hwv : node.mayPrecede (.leaf w) (.leaf v) = true) : v = w := by
  rw [mayPrecede_leaf hkeys] at hvw hwv
  exact Value.eq_of_order_eq htype (Std.OrientedCmp.isLE_antisymm hvw hwv)

namespace Context

variable {ctx : Context} {node : SchemaNode}

theorem readFlat_perm {type : ValueType} (hkind : node.kind = .leafList type)
    (hsystem : node.orderedBy = .system) {items items' : List Json} (hperm : items.Perm items') :
    ctx.readFlat node (.arr items') = ctx.readFlat node (.arr items) := by
  have hkeys : node.keys = [] := by simp [SchemaNode.keys, hkind]
  rw [readFlat_items hkind, readFlat_items hkind]
  by_cases hall : ∀ j ∈ items, (Value.ofJson? type j).isSome
  · have hall' : ∀ j ∈ items', (Value.ofJson? type j).isSome := fun j hj =>
      hall j (hperm.mem_iff.2 hj)
    have hvalues := hperm.filterMap (Value.ofJson? type)
    have htype : ∀ {items : List Json} {v}, v ∈ items.filterMap (Value.ofJson? type) →
        v.type = type := by
      intro items v hv
      obtain ⟨j, -, hj⟩ := List.mem_filterMap.1 hv
      exact Value.type_of_ofJson? hj
    have harrange := SchemaNode.arrange_perm
      ((SchemaNode.sortKind?_leafList hkind).2 hsystem) (hvalues.map Tree.leaf) (by
        intro x hx y hy hxy hyx
        obtain ⟨v, hv, rfl⟩ := List.mem_map.1 hx
        obtain ⟨w, hw, rfl⟩ := List.mem_map.1 hy
        rw [SchemaNode.leaf_eq hkeys ((htype hv).trans (htype hw).symm) hxy hyx])
    rw [mapM_of_forall hall, mapM_of_forall hall', Option.bind_some, Option.bind_some, arrange?,
      arrange?, harrange, (hvalues.map Tree.leaf).length_eq]
  · have hnone : ∀ {l : List Json}, (∀ j, j ∈ items → j ∈ l) →
        l.mapM (Value.ofJson? type) = none := by
      intro l hl
      rw [Option.eq_none_iff_forall_ne_some]
      exact fun vs hvs => hall fun j hj => isSome_of_mem_mapM hvs (hl j hj)
    rw [hnone fun j => hperm.mem_iff.1, hnone fun j => id]

/-- What is read from members does not depend on the order of leaf-lists in system order. -/
theorem readMembers_shuffled (hs : ctx.schema.Built) {q : Option SchemaId}
    {members members' : Json.Members} (h : ctx.schema.Shuffled q members members')
    (hq : ∀ i, q = some i → (ctx.schema.nodes[i]?).isSome) :
    ctx.readMembers q members' = ctx.readMembers q members := by
  have hbelow : ∀ {c : SchemaId} {node : SchemaNode}, ctx.schema.nodes[c]? = some node →
      ∀ i, some c = some i → (ctx.schema.nodes[i]?).isSome := by
    rintro c node hnode i ⟨⟩
    simp [hnode]
  induction h with
  | @here q name c node type items items' rest hc hnode hkind hsystem hperm =>
    have hmember : ctx.readMember c node (.arr items') = ctx.readMember c node (.arr items) := by
      simp only [readMember, hkind, readFlat_perm hkind hsystem hperm]
    rw [readMembers_cons hc hnode, readMembers_cons hc hnode, hmember]
  | @container q name c node members members' rest hc hnode hkind _ ih =>
    have hmember :
        ctx.readMember c node (.obj members') = ctx.readMember c node (.obj members) := by
      simp only [readMember, hkind, ih (hbelow hnode)]
    rw [readMembers_cons hc hnode, readMembers_cons hc hnode, hmember]
  | @entry q name c node keys front behind fields fields' rest hc hnode hkind h ih =>
    have hkeys : node.keys = keys := by simp [SchemaNode.keys, hkind]
    have hread : ∀ {keys' : List SchemaId}, (∀ key ∈ keys', key ∈ keys) →
        keys'.mapM (ctx.schema.readKey fields') = keys'.mapM (ctx.schema.readKey fields) := by
      intro keys' hmem
      induction keys' with
      | nil => rfl
      | cons key keys' ih =>
        obtain ⟨m, type, hm, hleaf, hparent, -⟩ :=
          hs.key hnode (hkeys ▸ hmem key List.mem_cons_self)
        rw [List.mapM_cons, List.mapM_cons, h.readKey_eq hs (hbelow hnode) hm hparent hleaf,
          ih fun key' hkey' => hmem key' (List.mem_cons_of_mem _ hkey')]
    have hentries : ctx.readEntries c keys (front ++ .obj fields' :: behind) =
        ctx.readEntries c keys (front ++ .obj fields :: behind) := by
      induction front with
      | nil => simp only [List.nil_append, readEntries, hread fun _ => id, ih (hbelow hnode)]
      | cons item front ih' =>
        cases item <;> simp only [List.cons_append, readEntries, ih']
    have hmember : ctx.readMember c node (.arr (front ++ .obj fields' :: behind)) =
        ctx.readMember c node (.arr (front ++ .obj fields :: behind)) := by
      simp only [readMember, hkind, hentries]
    rw [readMembers_cons hc hnode, readMembers_cons hc hnode, hmember]
  | @later q member _ _ _ ih =>
    obtain ⟨name, j⟩ := member
    simp only [readMembers, ih hq]

end Context

def Schema.Reorders (s : Schema) (document document' : Json) : Prop :=
  ∃ members members', document = .obj members ∧ document' = .obj members' ∧
    s.Shuffled none members members'

section

variable {ctx : Context} {f g : Forest} (h : Reachable ctx f) (hs : ctx.schema.Built)
  (hempty : f.children none = .ok []) {members : Json.Members}
  (hdistinct : (Json.obj members).distinct = true)

include h hs hempty hdistinct

/-- What is imported where nothing is at the top makes up the normal form of the document. -/
theorem Reachable.import_passes :
    Passes (ofJson ctx none (.obj members)) f
      (fun _ g => (∃ a, ctx.readMembers none members = some a) ∧
        g.toJson ctx none = .ok (ctx.schema.normal (.obj members)))
      (ctx.readMembers none members = none) := by
  have hsound := h.isSound hs
  obtain ⟨-, hlayout⟩ := (isSound_iff.1 hsound).1.laid.eq_of_children hempty
  refine (ofJson_reads hs hsound hlayout.symm hdistinct).mono ?_ id
  rintro _ g ⟨hg, a, ha, hbears⟩
  have hexport := (isSound_iff.1 hg).1.laid.toJson_eq hs g.alive_none hbears
  refine ⟨⟨a, ha⟩, ?_⟩
  rw [hexport, Schema.normal, Context.normalMembers_eq hs members (q := none) nofun ha]

end

/-- What is imported where nothing is at the top is exported in normal form, and the order of a
leaf-list in system order never changes that. -/
theorem Reachable.export_of_import {ctx : Context} {f : Forest} (h : Reachable ctx f)
    (hs : ctx.schema.Built) (hempty : f.children none = .ok []) {document : Json}
    (hdistinct : document.distinct = true) {ns : List NodeId} {g : Forest}
    (himport : (ofJson ctx none document).perform f = .ok (.ok ns, g)) :
    g.toJson ctx none = .ok (ctx.schema.normal document) ∧
    ∀ document', ctx.schema.Reorders document document' → ∃ ns' g',
      (ofJson ctx none document').perform f = .ok (.ok ns', g') ∧
        g'.toJson ctx none = .ok (ctx.schema.normal document) := by
  cases document with
  | obj members =>
    obtain ⟨⟨a, ha⟩, hexport⟩ := h.import_passes hs hempty hdistinct _ _ himport
    refine ⟨hexport, ?_⟩
    rintro _ ⟨_, members', heq, rfl, hshuffled⟩
    cases heq
    have hread := ctx.readMembers_shuffled hs hshuffled nofun
    have hpasses := h.import_passes hs hempty (hshuffled.distinct hdistinct)
    have hsound := h.isSound hs
    have hgrows := ofJson_grows hs hsound f.alive_none (.obj members)
    have hg := (isSound_iff.1 (hgrows.ensures _ _ himport _ rfl).1).1.laid
    -- both documents stand for as many instances
    have hdemand : ctx.schema.membersDemand none members' =
        ctx.schema.membersDemand none members :=
      (Context.demand_of_readMembers hs (q := none) nofun members' (hread.trans ha)).trans
        (Context.demand_of_readMembers hs (q := none) nofun members ha).symm
    have hsize : g.size = f.size + ctx.schema.membersDemand none members :=
      hgrows.size_eq _ _ himport _ rfl
    have hroom : f.size + ctx.schema.membersDemand none members' ≤ handleCount := by
      rw [hdemand, ← hsize]
      exact hg.size_le
    obtain ⟨r, g', hr, -⟩ := (ofJson_grows hs hsound f.alive_none (.obj members')).lands hroom
    cases r with
    | error why => cases (hpasses _ _ hr).symm.trans (hread.trans ha)
    | ok ns' =>
      obtain ⟨-, hexport'⟩ := hpasses _ _ hr
      refine ⟨ns', g', hr, ?_⟩
      rw [hexport', Schema.normal, Schema.normal,
        Context.normalMembers_eq hs members' (q := none) nofun (hread.trans ha),
        Context.normalMembers_eq hs members (q := none) nofun ha]
  | _ => cases himport

/-- Numbers are imported in one order and exported in another one. -/
theorem Reachable.export_of_import_of_numbers : ∃ ns g,
    (ofJson (.ofNumbers true) none
      (.obj [("number", .arr [.num (.natural 3), .num (.natural 1)])])).perform .empty =
        .ok (.ok ns, g) ∧
    g.toJson (.ofNumbers true) none =
      .ok (.obj [("number", .arr [.num (.natural 1), .num (.natural 3)])]) := by
  have h : Reachable (.ofNumbers true) .empty := .empty
  have hvalues : [Json.num (.natural 3), .num (.natural 1)].filterMap (Value.ofJson? .uint) =
      [.uint 3, .uint 1] := by decide
  have hsort : [Value.uint 3, .uint 1].mergeSort Value.mayPrecede = [.uint 1, .uint 3] := by
    have horder : Value.mayPrecede (.uint 3) (.uint 1) = false := by decide
    unfold List.mergeSort
    simp [List.MergeSort.Internal.splitInTwo, horder]
  have hnormal : (Context.ofNumbers true).schema.normal
      (.obj [("number", .arr [.num (.natural 3), .num (.natural 1)])]) =
        .obj [("number", .arr [.num (.natural 1), .num (.natural 3)])] := by
    have hname : (Context.ofNumbers true).schema.named none "number" = some 0 := by decide
    obtain ⟨node, hnode⟩ : ∃ node, (Context.ofNumbers true).schema.nodes[0]? = some node := ⟨_, rfl⟩
    have hflat : (Context.ofNumbers true).schema.normalMember 0 node
        (.arr [.num (.natural 3), .num (.natural 1)]) =
          .arr [.num (.natural 1), .num (.natural 3)] := by
      cases hnode
      rw [← hvalues] at hsort
      exact congrArg (fun values => Json.arr (values.map Value.toJson)) hsort
    rw [Schema.normal, Schema.normalMembers]
    simp only [hname, hnode, hflat]
    cases hnode
    rfl
  have hok : ((ofJson (.ofNumbers true) none
      (.obj [("number", .arr [.num (.natural 3), .num (.natural 1)])])).perform .empty).toOption.any
        (·.1.isOk) = true := by decide +kernel
  obtain ⟨ns, g, himport⟩ := exists_of_isOk hok
  refine ⟨ns, g, himport, ?_⟩
  rw [← hnormal]
  exact (h.export_of_import Schema.numbers_built rfl rfl himport).1

end InstanceTree
