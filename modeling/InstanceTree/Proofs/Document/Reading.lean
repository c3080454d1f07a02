import InstanceTree.Proofs.Document.Trees
import InstanceTree.Proofs.SchemaChildren
import InstanceTree.Proofs.StableSort
import InstanceTree.Proofs.ValueCoding

namespace InstanceTree

open Forest

def Grove.keyValue (a : Grove) (key : SchemaId) : Option Value :=
  (a.instances key).head?.bind Tree.value

/-- What an instance of a sorted schema node is compared by: its value, or its key values. -/
def Tree.row (node : SchemaNode) (x : Tree) : List Value :=
  x.value.toList ++ node.keys.filterMap (Grove.keyValue x.grove)

namespace SchemaNode

def mayPrecede (node : SchemaNode) (x y : Tree) : Bool :=
  (Value.orderRows (x.row node) (y.row node)).isLE

/-- The order that instances come to stand in: by their rows if they are sorted, and as they
come otherwise. -/
def arrange (node : SchemaNode) (xs : List Tree) : List Tree :=
  if node.sortKind?.isSome then xs.mergeSort node.mayPrecede else xs

def place (node : SchemaNode) (x : Tree) (xs : List Tree) : List Tree :=
  if node.sortKind?.isSome then putBehind node.mayPrecede x xs else xs ++ [x]

variable {node : SchemaNode} {x y : Tree} {xs : List Tree}

theorem mayPrecede_trans (a b c : Tree) (hab : node.mayPrecede a b = true)
    (hbc : node.mayPrecede b c = true) : node.mayPrecede a c = true := by
  have hab' : (Value.orderRows (a.row node) (b.row node)).isLE := hab
  have hbc' : (Value.orderRows (b.row node) (c.row node)).isLE := hbc
  have hac : (Value.orderRows (a.row node) (c.row node)).isLE :=
    Std.TransCmp.isLE_trans hab' hbc'
  exact hac

theorem mayPrecede_total (a b : Tree) : (node.mayPrecede a b || node.mayPrecede b a) = true := by
  have hswap : Value.orderRows (b.row node) (a.row node) =
      (Value.orderRows (a.row node) (b.row node)).swap := Std.OrientedCmp.eq_swap
  rw [mayPrecede, mayPrecede, hswap]
  cases Value.orderRows (a.row node) (b.row node) <;> rfl

theorem arrange_concat (node : SchemaNode) (xs : List Tree) (x : Tree) :
    node.arrange (xs ++ [x]) = node.place x (node.arrange xs) := by
  unfold arrange place
  split
  · exact mergeSort_concat mayPrecede_trans mayPrecede_total xs x
  · rfl

def placeAll (node : SchemaNode) (xs ys : List Tree) : List Tree :=
  ys.foldl (fun xs y => node.place y xs) xs

theorem placeAll_arrange (node : SchemaNode) (xs ys : List Tree) :
    node.placeAll (node.arrange xs) ys = node.arrange (xs ++ ys) := by
  induction ys generalizing xs with
  | nil => rw [List.append_nil]; rfl
  | cons y ys ih =>
    show node.placeAll (node.place y (node.arrange xs)) ys = _
    rw [← arrange_concat, ih, List.append_assoc]
    rfl

theorem arrange_nil (node : SchemaNode) : node.arrange [] = [] := by
  unfold arrange
  split
  · exact List.mergeSort_nil
  · rfl

theorem placeAll_nil (node : SchemaNode) (ys : List Tree) :
    node.placeAll [] ys = node.arrange ys := by
  have hall := placeAll_arrange node [] ys
  rwa [arrange_nil, List.nil_append] at hall

theorem place_nil (node : SchemaNode) (x : Tree) : node.place x [] = [x] := by
  unfold place
  split <;> rfl

theorem length_place : (node.place x xs).length = xs.length + 1 := by
  unfold place
  split
  · exact length_putBehind
  · exact List.length_append

theorem length_arrange : (node.arrange xs).length = xs.length := by
  unfold arrange
  split
  · exact List.length_mergeSort xs
  · rfl

theorem place_append {front behind : List Tree}
    (hsorted : node.sortKind?.isSome → (∀ z ∈ front, node.mayPrecede z x = true) ∧
      ∀ z ∈ behind, node.mayPrecede z x = false)
    (hunsorted : node.sortKind? = none → behind = []) :
    node.place x (front ++ behind) = front ++ x :: behind := by
  unfold place
  split
  · next h => exact putBehind_append (hsorted h).1 (hsorted h).2
  · next h =>
    rw [hunsorted (by simpa using h), List.append_nil]

end SchemaNode

namespace Context

/-- Whether as many instances of a schema node as are counted may stand below one parent. Only
the index of a sorted group sets a limit, and there is none for a single instance. -/
def hasRoom (ctx : Context) (node : SchemaNode) (count : Nat) : Bool :=
  !(node.sortKind?.isSome && ctx.indexes) || count ≤ 1 || ctx.options.indexLimit.all (count ≤ ·)

def arrange? (ctx : Context) (node : SchemaNode) (xs : List Tree) : Option (List Tree) :=
  if ctx.hasRoom node xs.length then some (node.arrange xs) else none

variable {ctx : Context} {node : SchemaNode} {xs : List Tree}

theorem hasRoom_one (ctx : Context) (node : SchemaNode) : ctx.hasRoom node 1 = true := by
  simp [hasRoom]

theorem arrange?_eq_none (h : ctx.hasRoom node xs.length = false) :
    ctx.arrange? node xs = none := by
  simp [arrange?, h]

theorem arrange?_eq_some (h : ctx.hasRoom node xs.length = true) :
    ctx.arrange? node xs = some (node.arrange xs) := by
  simp [arrange?, h]

end Context

namespace Schema

variable [ByteCodec] {s : Schema}

def readKey (s : Schema) (fields : Json.Members) (key : SchemaId) : Option Value := do
  let node ← s.nodes[key]?
  let j ← fields.get? node.name
  Value.ofJson? (← node.valueType?) j

theorem readKey_eq_some {fields : Json.Members} {key : SchemaId} {v : Value}
    (h : s.readKey fields key = some v) :
    ∃ node j, s.nodes[key]? = some node ∧ node.valueType? = some v.type ∧
      fields.get? node.name = some j ∧ Value.ofJson? v.type j = some v := by
  simp only [readKey, Option.bind_eq_bind, Option.bind_eq_some_iff] at h
  obtain ⟨node, hnode, j, hj, type, htype, hv⟩ := h
  cases Value.type_of_ofJson? hv
  exact ⟨node, j, hnode, htype, hj, hv⟩

end Schema

section

variable {α β : Type} {read : α → Option β} {as : List α} {bs : List β}

theorem mapM_eq_some :
    as.mapM read = some bs ↔ List.Forall₂ (fun a b => read a = some b) as bs := by
  induction as generalizing bs with
  | nil => cases bs <;> simp
  | cons a as ih =>
    simp only [List.mapM_cons, Option.bind_eq_bind, Option.bind_eq_some_iff]
    constructor
    · rintro ⟨b, hb, bs, hbs, heq⟩
      cases heq
      exact .cons hb (ih.1 hbs)
    · rintro (_ | ⟨hb, hbs⟩)
      exact ⟨_, hb, _, ih.2 hbs, rfl⟩

theorem filterMap_of_mapM (h : as.mapM read = some bs) : as.filterMap read = bs := by
  induction mapM_eq_some.1 h with
  | nil => rfl
  | cons hb hbs ih => rw [List.filterMap_cons, hb, ih (mapM_eq_some.2 hbs)]

theorem mapM_of_forall (h : ∀ a ∈ as, (read a).isSome) :
    as.mapM read = some (as.filterMap read) := by
  induction as with
  | nil => rfl
  | cons a as ih =>
    obtain ⟨b, hb⟩ := Option.isSome_iff_exists.1 (h a List.mem_cons_self)
    simp [hb, ih fun a' ha' => h a' (List.mem_cons_of_mem _ ha')]

theorem isSome_of_mem_mapM (h : as.mapM read = some bs) {a : α} (ha : a ∈ as) :
    (read a).isSome := by
  obtain ⟨i, hi, rfl⟩ := List.getElem_of_mem ha
  have hread := List.forall₂_iff_get.1 (mapM_eq_some.1 h)
  exact Option.isSome_iff_exists.2 ⟨_, hread.2 i hi (hread.1 ▸ hi)⟩

theorem exists_of_mem_mapM (h : as.mapM read = some bs) {b : β} (hb : b ∈ bs) :
    ∃ a ∈ as, read a = some b := by
  rw [← filterMap_of_mapM h] at hb
  exact List.mem_filterMap.1 hb

end

def keyLeaves (keys : List SchemaId) (values : List Value) : Grove :=
  List.zipWith (fun key v => (key, [Tree.leaf v])) keys values

theorem keyLeaves_fst {keys : List SchemaId} {values : List Value} {t : SchemaId}
    (ht : t ∈ (keyLeaves keys values).map Prod.fst) : t ∈ keys := by
  induction keys generalizing values with
  | nil => simp [keyLeaves] at ht
  | cons key keys ih =>
    cases values with
    | nil => simp [keyLeaves] at ht
    | cons v values =>
      rcases List.mem_cons.1 ht with rfl | ht
      · exact List.mem_cons_self
      · exact List.mem_cons_of_mem _ (ih ht)

namespace Grove

def push (t : SchemaId) : List Tree → Grove → Grove
  | [], a => a
  | x :: xs, a => (t, x :: xs) :: a

theorem push_fst {t u : SchemaId} {xs : List Tree} {a : Grove}
    (hu : u ∈ (push t xs a).map Prod.fst) : u = t ∨ u ∈ a.map Prod.fst := by
  cases xs with
  | nil => exact .inr hu
  | cons x xs => exact List.mem_cons.1 hu

theorem instances_eq_nil {a : Grove} {t : SchemaId} (ht : t ∉ a.map Prod.fst) :
    instances a t = [] := by
  induction a with
  | nil => rfl
  | cons group a ih =>
    obtain ⟨u, xs⟩ := group
    obtain ⟨hne, ht⟩ := not_or.1 (List.mem_cons.not.1 ht)
    rw [instances, if_neg (Ne.symm hne)]
    exact ih ht

theorem instances_append_left {a b : Grove} {t : SchemaId} (ht : t ∉ b.map Prod.fst) :
    instances (a ++ b) t = instances a t := by
  induction a with
  | nil => exact instances_eq_nil ht
  | cons group a ih =>
    obtain ⟨u, xs⟩ := group
    rw [List.cons_append, instances, instances, ih]

end Grove

theorem Tree.row_append {node : SchemaNode} {v : Option Value} {a b : Grove}
    (hb : ∀ key ∈ node.keys, key ∉ b.map Prod.fst) :
    (Tree.node v (a ++ b)).row node = (Tree.node v a).row node := by
  have hkeys : ∀ key ∈ node.keys, Grove.keyValue (a ++ b) key = Grove.keyValue a key := by
    intro key hkey
    rw [Grove.keyValue, Grove.keyValue, Grove.instances_append_left (hb key hkey)]
  rw [row, row]
  exact congrArg _ (List.filterMap_congr hkeys)

namespace Context

variable [ByteCodec]

def readFlat (ctx : Context) (node : SchemaNode) (j : Json) : Option (List Tree) :=
  match node.kind with
  | .leaf type => (Value.ofJson? type j).map fun v => [.leaf v]
  | .leafList type => match j with
    | .arr items => do
      ctx.arrange? node ((← items.mapM (Value.ofJson? type)).map Tree.leaf)
    | _ => none
  | _ => none

mutual

def readMember (ctx : Context) (t : SchemaId) (node : SchemaNode) : Json → Option (List Tree)
  | .obj members => match node.kind with
    | .container => do return [.node none (← readMembers ctx (some t) members)]
    | _ => readFlat ctx node (.obj members)
  | .arr items => match node.kind with
    | .list keys => do arrange? ctx node (← readEntries ctx t keys items)
    | _ => readFlat ctx node (.arr items)
  | j => readFlat ctx node j

def readEntries (ctx : Context) (t : SchemaId) (keys : List SchemaId) :
    List Json → Option (List Tree)
  | [] => some []
  | .obj fields :: rest => do
    let values ← keys.mapM (ctx.schema.readKey fields)
    let below ← readMembers ctx (some t) fields
    return .node none (keyLeaves keys values ++ below) :: (← readEntries ctx t keys rest)
  | _ :: _ => none

/-- The siblings that the members of an object stand for below an instance of `t`, or at the top.
Keys are left out: they are read with their list instance. -/
def readMembers (ctx : Context) (t : Option SchemaId) : List (String × Json) → Option Grove
  | [] => some []
  | (name, j) :: rest => do
    let c ← ctx.schema.named t name
    let node ← ctx.schema.nodes[c]?
    if node.isKey then
      readMembers ctx t rest
    else
      let xs ← readMember ctx c node j
      return Grove.push c xs (← readMembers ctx t rest)

end

variable {ctx : Context} {node : SchemaNode}

theorem readMembers_cons {q : Option SchemaId} {name : String} {c : SchemaId}
    (hc : ctx.schema.named q name = some c) (hnode : ctx.schema.nodes[c]? = some node) (j : Json)
    (rest : List (String × Json)) : ctx.readMembers q ((name, j) :: rest) =
      if node.isKey then ctx.readMembers q rest else
        (ctx.readMember c node j).bind fun xs => (ctx.readMembers q rest).bind fun a =>
          some (Grove.push c xs a) := by
  simp only [readMembers, hc, hnode, Option.bind_eq_bind, Option.bind_some]
  rfl

theorem readFlat_leaf {type : ValueType} (hkind : node.kind = .leaf type) (j : Json) :
    ctx.readFlat node j = (Value.ofJson? type j).map fun v => [.leaf v] := by
  simp [readFlat, hkind]

theorem readMember_leaf {t : SchemaId} {type : ValueType} (hkind : node.kind = .leaf type)
    (j : Json) :
    ctx.readMember t node j = (Value.ofJson? type j).map fun v => [.leaf v] := by
  have hflat : ctx.readFlat node j = _ := readFlat_leaf hkind j
  rw [← hflat]
  cases j <;> simp [readMember, hkind]

theorem readMember_container {t : SchemaId} (hkind : node.kind = .container)
    (members : List (String × Json)) : ctx.readMember t node (.obj members) =
      (ctx.readMembers (some t) members).bind fun below => some [.node none below] := by
  rw [readMember, hkind]
  rfl

theorem readMember_list {t : SchemaId} (hkind : node.kind = .list node.keys) (items : List Json) :
    ctx.readMember t node (.arr items) =
      (ctx.readEntries t node.keys items).bind (ctx.arrange? node) := by
  rw [readMember, hkind]
  rfl

theorem readMember_obj {t : SchemaId} (hkind : node.kind ≠ .container)
    (members : List (String × Json)) :
    ctx.readMember t node (.obj members) = ctx.readFlat node (.obj members) := by
  unfold readMember
  cases h : node.kind with
  | container => contradiction
  | _ => rfl

theorem readMember_arr {t : SchemaId} (hkind : ∀ keys, node.kind ≠ .list keys)
    (items : List Json) : ctx.readMember t node (.arr items) = ctx.readFlat node (.arr items) := by
  unfold readMember
  cases h : node.kind with
  | list keys => cases hkind keys h
  | _ => rfl

theorem readFlat_items {type : ValueType} (hkind : node.kind = .leafList type)
    (items : List Json) : ctx.readFlat node (.arr items) =
      (items.mapM (Value.ofJson? type)).bind fun vs => ctx.arrange? node (vs.map .leaf) := by
  simp [readFlat, hkind]

theorem readMembers_fst (hs : ctx.schema.Built) {q : Option SchemaId}
    (hq : ∀ i, q = some i → (ctx.schema.nodes[i]?).isSome) {members : List (String × Json)}
    {a : Grove} (h : ctx.readMembers q members = some a) {u : SchemaId} (hu : u ∈ a.map Prod.fst) :
    ∃ n, ctx.schema.nodes[u]? = some n ∧ n.isKey = false ∧ n.name ∈ members.map Prod.fst := by
  induction members generalizing a with
  | nil =>
    cases h
    cases hu
  | cons member rest ih =>
    obtain ⟨name, j⟩ := member
    simp only [readMembers, Option.bind_eq_bind, Option.bind_eq_some_iff] at h
    obtain ⟨c, hc, node, hnode, h⟩ := h
    have hrest : ∀ {b}, ctx.readMembers q rest = some b → u ∈ b.map Prod.fst →
        ∃ n, ctx.schema.nodes[u]? = some n ∧ n.isKey = false ∧
          n.name ∈ ((name, j) :: rest).map Prod.fst := by
      intro b hb hu
      obtain ⟨n, hn, hkey, hname⟩ := ih hb hu
      exact ⟨n, hn, hkey, List.mem_cons_of_mem _ hname⟩
    split at h
    · exact hrest h hu
    · next hkey =>
      simp only [Option.bind_eq_some_iff] at h
      obtain ⟨xs, -, b, hb, heq⟩ := h
      cases heq
      rcases Grove.push_fst hu with rfl | hu
      · obtain ⟨n, hn, -, rfl⟩ := hs.named_eq_some hc hq
        cases hnode.symm.trans hn
        exact ⟨node, hnode, by simpa using hkey, List.mem_cons_self⟩
      · exact hrest hb hu

end Context

end InstanceTree
