import InstanceTree.Proofs.Document.Reading

namespace InstanceTree

open Edit Forest

namespace Context

variable {ctx : Context} {node : SchemaNode}

theorem hasRoom_mono {count count' : Nat} (h : count ≤ count') (hroom : ctx.hasRoom node count') :
    ctx.hasRoom node count = true := by
  simp only [hasRoom, Bool.or_eq_true, decide_eq_true_eq] at hroom ⊢
  rcases hroom with (hplain | hone) | hlimit
  · exact .inl (.inl hplain)
  · exact .inl (.inr (Nat.le_trans h hone))
  · refine .inr ?_
    cases hindex : ctx.options.indexLimit with
    | none => rfl
    | some limit =>
      simp only [hindex, Option.all_some, decide_eq_true_eq] at hlimit ⊢
      exact Nat.le_trans h hlimit

theorem noRoom_mono {count count' : Nat} (h : count ≤ count')
    (hfull : ctx.hasRoom node count = false) : ctx.hasRoom node count' = false := by
  rw [Bool.eq_false_iff] at hfull ⊢
  exact fun hroom => hfull (hasRoom_mono h hroom)

end Context

theorem Sound.hasRoom {ctx : Context} {f : Forest} {k : Layout} {t : SchemaId}
    {node : SchemaNode} (h : Sound ctx f k) (hnode : ctx.schema.nodes[t]? = some node)
    (p : Option NodeId) : ctx.hasRoom node (f.group k p t).length = true := by
  unfold Context.hasRoom
  cases hkind : node.sortKind? with
  | none => simp
  | some kind =>
    cases hindexes : ctx.indexes with
    | false => simp
    | true =>
      have hled := h.anchored.led p t node kind hnode hkind
      cases hgroup : f.group k p t with
      | nil => simp
      | cons leader rest =>
        rw [hgroup] at hled
        obtain ⟨x, -, hindex⟩ := hled.leader_eq hindexes rfl
        cases hx : x.index with
        | none =>
          rw [hx] at hindex
          have hone : (leader :: rest).length = 1 := hindex
          simp [hone]
        | some i =>
          rw [hx] at hindex
          obtain ⟨-, -, -, hallows, -⟩ := hindex
          cases hlimit : ctx.options.indexLimit with
          | none => simp
          | some limit =>
            have hle := hallows limit hlimit
            simp only [Option.all_some, decide_eq_true hle, Bool.or_true]

namespace Forest

variable {ctx : Context} {f : Forest} {k : Layout} {p : Option NodeId} {n : NodeId} {e : Element}
  {t : SchemaId} {node : SchemaNode}

theorem insertIntoGroup_refused (h : Sound ctx f k) (hs : ctx.schema.Built)
    (he : f.get? n = some e) (hloose : e.linked = false)
    (hnode : ctx.schema.nodes[e.schema]? = some node) (hparent : node.parent = p.bind f.kind?)
    {kind : SortKind} (hkind : node.sortKind? = some kind) {leader : NodeId}
    (hleader : (f.group k p e.schema).head? = some leader) :
    Ensures (insertIntoGroup ctx leader n) f fun r _ => ∀ why, r = .error why →
      why = .indexFull ∧ ctx.hasRoom node ((f.group k p e.schema).length + 1) = false := by
  obtain ⟨as, gx, gy, bs, hjoins⟩ := h.exists_joins hs he hloose hnode hkind hparent
  rw [hjoins.group_eq] at hleader ⊢
  intro r g hr why hwhy
  subst hwhy
  have hpos : 0 < (gx ++ gy).length :=
    List.length_pos_of_mem (List.mem_of_head? hleader)
  cases hindexes : ctx.indexes with
  | false => cases hr.symm.trans (hjoins.insertIntoGroup_plain hindexes hleader)
  | true =>
    rcases hjoins.insertIntoGroup_eq hleader with ⟨limit, hlimit, hle, hfull⟩ | ⟨a, hplaced, -⟩
    · cases hr.symm.trans hfull
      have hover : ¬(gx ++ gy).length + 1 ≤ limit := by omega
      have hmany : ¬(gx ++ gy).length + 1 ≤ 1 := by omega
      refine ⟨rfl, ?_⟩
      simp only [Context.hasRoom, hkind, hindexes, hlimit, Option.isSome_some, Bool.and_self,
        Bool.not_true, Bool.false_or, Option.all_some, hover, hmany, decide_false]
    · cases hr.symm.trans hplaced

/-- An element is refused for want of room if it stands nowhere and fits below the parent, and only
then. -/
theorem insertChild_refused (h : Sound ctx f k) (hs : ctx.schema.Built) (hp : f.Alive p)
    (he : f.get? n = some e) (hnode : ctx.schema.nodes[e.schema]? = some node) :
    Ensures (insertChild ctx p n) f fun r _ => ∀ why, r = .error why →
      (why = .indexFull ↔
        e.linked = false ∧ node.parent = p.bind f.kind? ∧ node.isKey = false) ∧
      (why = .indexFull → ctx.hasRoom node ((f.group k p e.schema).length + 1) = false) := by
  have hn : f.kind? n = some e.schema := by simp [kind?, he]
  refine (requireUnlinked_checks he).bind ?_ ?_
  · intro why hlinked hwhy _ heq
    cases heq
    exact ⟨iff_of_false hwhy fun hfits => hlinked hfits.1, fun heq => absurd heq hwhy⟩
  intro hloose
  refine (requireParent_checks h.laid hp he hnode).bind ?_ ?_
  · intro why hother hwhy _ heq
    cases heq
    exact ⟨iff_of_false hwhy fun hfits => hother hfits.2.1, fun heq => absurd heq hwhy⟩
  intro hparent
  refine Ensures.bind_look_ok (schemaNode_eq hn hnode) ?_
  apply Ensures.guard
  · intro hkey _ heq
    cases heq
    refine ⟨iff_of_false (by simp) fun hfits => ?_, by simp⟩
    exact Bool.false_ne_true (hfits.2.2.symm.trans hkey)
  intro hkey
  have hkey : node.isKey = false := by simpa using hkey
  refine Ensures.bind_look_ok (schemaOf_of_get? he) ?_
  refine Ensures.bind_look_ok (h.laid.runStart_eq hp e.schema) ?_
  cases hkind : node.sortKind? with
  | none =>
    rw [if_pos Option.isNone_none]
    exact Ensures.change fun _ _ => by simp
  | some kind =>
    rw [if_neg (by simp)]
    cases hleader : (f.group k p e.schema).head? with
    | none =>
      apply Ensures.bind_change
      intro g _
      exact Ensures.tryCatch (P := fun _ _ => True) (fun _ _ _ => trivial)
        (fun _ _ _ => by simp) fun _ _ _ => Ensures.pure (by simp)
    | some leader =>
      refine (insertIntoGroup_refused h hs he hloose hnode hparent hkind hleader).mono ?_
      intro r g hr why hwhy
      obtain ⟨rfl, hfull⟩ := hr why hwhy
      exact ⟨iff_of_true rfl ⟨hloose, hparent, hkey⟩, fun _ => hfull⟩

theorem row_eq {x : Tree} (hx : Depicts f n x) (node : SchemaNode) :
    f.row f.layout node n = x.row node := by
  obtain ⟨hvalue, hbelow⟩ := depicts_iff.1 hx
  rw [row, Tree.row, hvalue]
  congr 2
  funext key
  exact (hbelow.group key).head_value

theorem exists_cut_of_beside {q : NodeId → Bool} {old ns xs ys : List NodeId}
    (hsplit : xs ++ ys = old ++ ns) (hold : ∀ m ∈ old, q m = false) (hns : ∀ m ∈ ns, q m = true)
    (hbeside : Beside q xs ys) (hfirst : (∀ m ∈ xs ++ ys, q m = false) → ys = []) :
    ∃ gx, xs = old ++ gx ∧ ns = gx ++ ys := by
  rcases List.append_eq_append_iff.1 hsplit with ⟨c, rfl, rfl⟩ | ⟨c, rfl, rfl⟩
  · cases c with
    | nil => exact ⟨[], by simp, rfl⟩
    | cons b c =>
      have hnone : ∀ m ∈ xs ++ (b :: c ++ ns), q m = false := by
        rcases hbeside with hb | hb | hb
        · rw [any_getLast?_eq_false fun m hm => hold m (by simp [hm])] at hb
          cases hb
        · rw [List.cons_append, List.head?_cons, Option.any_some, hold b (by simp)] at hb
          cases hb
        · exact hb
      cases hfirst hnone
  · exact ⟨c, rfl, rfl⟩

/-- The children of `p` are the old ones, none of which is an instance of `t`, and behind them the
instances of `t` that some trees say. -/
structure Trailing (ctx : Context) (f : Forest) (p : Option NodeId) (t : SchemaId)
    (node : SchemaNode) (old : List NodeId) (xs : List Tree) : Prop where
  isSound : IsSound ctx f
  alive : f.Alive p
  nodeOf : ctx.schema.nodes[t]? = some node
  parent : node.parent = p.bind f.kind?
  others : ∀ m ∈ old, f.isOf t m = false
  instances : ∃ ns, f.layout p = old ++ ns ∧ DepictsAll f t ns xs

namespace Trailing

variable {old : List NodeId} {xs : List Tree}

theorem sound (h : Trailing ctx f p t node old xs) : Sound ctx f f.layout :=
  (isSound_iff.1 h.isSound).1

theorem group_eq (h : Trailing ctx f p t node old xs) {ns : List NodeId}
    (hlayout : f.layout p = old ++ ns) (hns : DepictsAll f t ns xs) :
    f.group f.layout p t = ns := by
  have hgroup : (old ++ (ns ++ [])).filter (f.isOf t) = ns := hns.filter_between h.others nofun
  rwa [List.append_nil, ← hlayout] at hgroup

theorem hasRoom (h : Trailing ctx f p t node old xs) : ctx.hasRoom node xs.length = true := by
  obtain ⟨ns, hlayout, hns⟩ := h.instances
  have hroom := h.sound.hasRoom h.nodeOf p
  rwa [h.group_eq hlayout hns, hns.length_eq] at hroom

/-- A new element is linked among the instances of its schema node at the place that its row asks
for, and it is refused only if there is no room for it. -/
theorem linkNew_places (h : Trailing ctx f p t node old xs) (hs : ctx.schema.Built)
    (hkey : node.isKey = false) (hn : f.kind? n = some t) (hloose : ∀ q, n ∉ f.layout q) :
    Passes (linkNew ctx p n) f (fun _ g => ∃ gx gy tx ty,
      g.layout p = old ++ (gx ++ n :: gy) ∧ f.layout p = old ++ (gx ++ gy) ∧
        DepictsAll f t gx tx ∧ DepictsAll f t gy ty ∧
          ∀ y : Tree, y.row node = f.row f.layout node n → node.place y xs = tx ++ y :: ty)
      (ctx.hasRoom node (xs.length + 1) = false) := by
  obtain ⟨ns, hlayout, hns⟩ := h.instances
  obtain ⟨e, he, rfl⟩ := get?_of_kind? hn
  have hloose' : e.linked = false := by
    cases hlinked : e.linked with
    | false => rfl
    | true => exact absurd (h.sound.laid.placed n e he hlinked) (hloose _)
  have hin : ∀ m ∈ ns, f.isOf e.schema m = true := fun m hm => by simp [hns.isOf_eq m hm]
  refine (linkNew_lands h.isSound hs h.alive hn).ensures.mono fun r g hr => ?_
  cases r with
  | error _ =>
    obtain ⟨why, hrefused⟩ := hr
    rw [← hns.length_eq, ← h.group_eq hlayout hns]
    obtain ⟨hiff, hfull⟩ := insertChild_refused h.sound hs h.alive he h.nodeOf _ _ hrefused why rfl
    exact hfull (hiff.2 ⟨hloose', h.parent, hkey⟩)
  | ok _ =>
    obtain ⟨e', node', us, vs, hnode', hplacing, hsettles⟩ := hr
    cases he.symm.trans hplacing.lives
    cases h.nodeOf.symm.trans hnode'
    obtain ⟨gx, rfl, rfl⟩ := exists_cut_of_beside (hplacing.split.symm.trans hlayout) h.others hin
      hsettles.beside hsettles.first
    obtain ⟨tx, ty, rfl, htx, hty⟩ := hns.split
    refine ⟨gx, vs, tx, ty, ?_, hlayout, htx, hty, fun y hy => ?_⟩
    · rw [hplacing.layout_eq, List.append_assoc]
    refine SchemaNode.place_append (fun hsorted => ?_) fun hunsorted => ?_
    · obtain ⟨hfront, hbehind⟩ := hsettles.sorted hsorted
      constructor
      · intro z hz
        obtain ⟨m, hm, hkind, hdepicts⟩ := htx.exists_of_mem hz
        have hle := hfront m (List.mem_append_right _ hm) (by simp [isOf, hkind])
        rw [rowOrder, row_eq hdepicts, ← hy] at hle
        exact Ordering.isLE_iff_ne_gt.2 hle
      · intro z hz
        obtain ⟨m, hm, hkind, hdepicts⟩ := hty.exists_of_mem hz
        have hgt := hbehind m hm (by simp [isOf, hkind])
        rw [rowOrder, row_eq hdepicts, ← hy] at hgt
        rw [SchemaNode.mayPrecede, hgt]
        rfl
    · have hvs : vs = [] := by
        by_cases hany : ((old ++ gx) ++ vs).any (f.isOf e.schema) = true
        · obtain ⟨-, hnone⟩ := hsettles.unsorted hunsorted hany
          apply List.eq_nil_iff_forall_not_mem.2
          intro m hm
          cases (hnone m hm).symm.trans (hin m (by simp [hm]))
        · apply hsettles.first
          intro m hm
          simpa using List.any_eq_false.1 (Bool.eq_false_iff.2 hany) m hm
      subst hvs
      cases ty with
      | nil => rfl
      | cons z ty => exact hty.elim

end Trailing

end Forest

end InstanceTree
