import InstanceTree.Group.Removal
import InstanceTree.Proofs.Group.Insertion

namespace InstanceTree

open Forest

/-- From the group `gx ++ n :: gy` of a sorted schema node goes `n`. -/
structure Leaves (ctx : Context) (f : Forest) (k : Layout) (p : Option NodeId) (node : SchemaNode)
    (kind : SortKind) (n : NodeId) (e : Element) (as gx gy bs : List NodeId) : Prop
    extends Gathers ctx f k p node kind e.schema as (gx ++ n :: gy) bs where
  lives : f.get? n = some e

/-- What becomes of the anchor of a group that has lost a member, so that the members `g` are left:
an index loses the member as well, and goes if there is one member left. -/
def Sheds (ctx : Context) (kind : SortKind) (g : List NodeId) :
    Option Anchor → Option Anchor → Prop
  | some ⟨some _⟩, x => ∃ i : Index, i.Has ctx kind g ∧
    x = some ⟨if i.count ≤ 1 then none else some i⟩
  | y, x => x = y

/-- How anchors change where a sorted group `g` loses a member and `g'` is left of it. -/
structure Shed (ctx : Context) (kind : SortKind) (g g' : List NodeId)
    (a b : NodeId → Option Anchor) : Prop where
  leader : ∀ leader l, g.head? = some leader → g'.head? = some l →
    Sheds ctx kind g' (a leader) (b l)
  follower : ∀ l m, g'.head? = some l → m ∈ g' → m ≠ l → b m = none
  other : ∀ m, m ∉ g → b m = a m

/-- The first member of what is left of a group takes the index over, if one is needed. -/
theorem Shed.led {ctx : Context} {kind : SortKind} {g g' : List NodeId}
    {a b : NodeId → Option Anchor} (h : Shed ctx kind g g' a b) (hled : Led ctx kind g a)
    (hlen : g.length = g'.length + 1) : Led ctx kind g' b := by
  cases g' with
  | nil =>
    intro m hm
    cases hm
  | cons l g' =>
    obtain ⟨leader, rest, rfl⟩ := List.exists_cons_of_length_eq_add_one hlen
    have hsheds := h.leader leader l rfl rfl
    have hother : ∀ m ∈ l :: g', m ≠ l → b m = none := fun m => h.follower l m rfl
    cases hindexes : ctx.indexes with
    | false =>
      rw [hled.plain_eq hindexes (by simp)] at hsheds
      apply led_of_plain hindexes
      intro m hm
      by_cases hml : m = l
      · rw [hml]
        exact hsheds
      · exact hother m hm hml
    | true =>
      have hleader : (leader :: rest).head? = some leader := List.head?_cons
      obtain ⟨⟨index⟩, hx, hindex⟩ := hled.leader_eq hindexes hleader
      rw [hx] at hsheds
      cases index with
      | none =>
        have hone : (leader :: rest).length = 1 := hindex
        simp [hlen] at hone
      | some i =>
        obtain ⟨i', hhas, hb⟩ := hsheds
        refine led_of_leader rfl hb hindexes ?_ hother
        rw [hhas.count_eq]
        split
        · next hle => exact Nat.le_antisymm hle (by simp)
        · exact indexes_some.2 ⟨by omega, hhas⟩

namespace Leaves

variable {ctx : Context} {f : Forest} {k : Layout} {p : Option NodeId} {node : SchemaNode}
  {kind : SortKind} {n leader : NodeId} {e : Element} {as gx gy bs rest : List NodeId}
  {a : NodeId → Option Anchor}

theorem split (h : Leaves ctx f k p node kind n e as gx gy bs) :
    k p = (as ++ gx) ++ n :: (gy ++ bs) := by
  simpa using h.together.eq

theorem ne_of_mem (h : Leaves ctx f k p node kind n e as gx gy bs) {m : NodeId}
    (hm : m ∈ gx ++ gy) : m ≠ n := by
  intro heq
  subst heq
  have hnd := h.nodup
  rw [List.nodup_middle, List.nodup_cons] at hnd
  exact hnd.1 hm

theorem remove_spec (h : Leaves ctx f k p node kind n e as gx gy bs) {i : Index}
    (hi : i.Has ctx kind (gx ++ n :: gy)) (a : NodeId → Option Anchor) :
    Yields (i.remove ctx (f.anchored a) n) fun i' => i'.Has ctx kind (gx ++ gy) :=
  hi.remove_spec (h.sorts a) (fun _ hm => h.kind?_of_mem hm) h.ascending h.nodup

theorem secondMember?_eq (h : Leaves ctx f k p node kind n e as gx gy bs)
    (hg : gx ++ n :: gy = leader :: rest) (a : NodeId → Option Anchor) :
    (f.anchored a).secondMember? leader = .ok rest.head? := by
  have hlaid := h.sound.laid.anchored a
  have hsplit : k p = as ++ leader :: (rest ++ bs) := by
    have heq := h.together.eq
    rwa [hg] at heq
  obtain ⟨el, hel, -, -, -, hnext⟩ := hlaid.links p as leader (rest ++ bs) hsplit
  have hkind : ∀ m ∈ leader :: rest, (f.anchored a).kind? m = some e.schema := by
    intro m hm
    rw [kind?_anchored]
    exact h.kind?_of_mem (hg ▸ hm)
  obtain ⟨el', hel', hschema⟩ := get?_of_kind? (hkind leader (by simp))
  cases hel.symm.trans hel'
  simp only [secondMember?, element_of_get? hel, ok_bind, hnext]
  cases rest with
  | cons second rest =>
    simp only [List.cons_append, List.head?_cons, schemaOf_eq_ok.2 (hkind second (by simp)),
      ok_bind, hschema, if_true]
    rfl
  | nil =>
    cases bs with
    | nil => rfl
    | cons b bs =>
      obtain ⟨eb, heb, -⟩ := hlaid.exists_of_mem (p := p) (n := b) (by simp [hsplit])
      have hother : eb.schema ≠ el.schema := by
        have hb := h.together.after b (by simp)
        rwa [← isOf_anchored f a, isOf_of_get? heb, decide_eq_false_iff_not, ← hschema] at hb
      simp only [List.nil_append, List.head?_cons, schemaOf_of_get? heb, ok_bind, if_neg hother]
      rfl

theorem reindex_eq (h : Leaves ctx f k p node kind n e as gx gy bs) {i : Index}
    (hi : i.Has ctx kind (gx ++ n :: gy)) {l : NodeId} {el : Element} (hl : f.get? l = some el)
    (ha : a l = some ⟨none⟩) :
    ∃ i' : Index, i'.Has ctx kind (gx ++ gy) ∧
      (i.remove ctx (f.anchored a) n >>= fun i => if i.count ≤ 1 then do
          let _ ← i.drain
          return (← (f.anchored a).setIndex l none, l)
        else do
          return (← (f.anchored a).setIndex l (some i), l)) =
        .ok (f.anchored
          (Function.update a l (some ⟨if i'.count ≤ 1 then none else some i'⟩)), l) := by
  obtain ⟨i', hi', hhas⟩ := h.remove_spec hi a
  refine ⟨i', hhas, ?_⟩
  simp only [hi', ok_bind, hhas.drain_eq, setIndex_anchored hl, ha, Option.map_some]
  split <;> rfl

theorem exists_head (h : Leaves ctx f k p node kind n e as gx gy bs) {second : NodeId}
    (hg : gx ++ n :: gy = leader :: second :: rest) : ∃ l, (gx ++ gy).head? = some l ∧
      l ∈ gx ++ n :: gy ∧ (leader = n ∧ l = second ∨ leader ≠ n ∧ l = leader) := by
  cases gx with
  | nil =>
    obtain ⟨rfl, rfl⟩ : n = leader ∧ gy = second :: rest := List.cons.inj hg
    exact ⟨second, rfl, by simp, .inl ⟨rfl, rfl⟩⟩
  | cons b gx =>
    obtain ⟨rfl, -⟩ : b = leader ∧ gx ++ n :: gy = second :: rest := List.cons.inj hg
    refine ⟨b, rfl, by simp, .inr ⟨?_, rfl⟩⟩
    intro heq
    subst heq
    simpa using h.nodup

/-- The anchor of a group of two members or more passes to the first one that is left. -/
theorem removeSorted_passes (h : Leaves ctx f k p node kind n e as gx gy bs)
    (ha : Fading ctx kind (gx ++ n :: gy) a) {second : NodeId}
    (hg : gx ++ n :: gy = leader :: second :: rest) :
    ∃ l x leader', (gx ++ gy).head? = some l ∧ (f.anchored a).removeSorted ctx leader n =
      .ok (f.anchored (passed a leader l x), leader') ∧ Sheds ctx kind (gx ++ gy) (a leader) x := by
  have hget : ∀ m ∈ gx ++ n :: gy, ∃ em, f.get? m = some em := by
    intro m hm
    obtain ⟨em, hem, -⟩ := get?_of_kind? (h.kind?_of_mem hm)
    exact ⟨em, hem⟩
  obtain ⟨el, hel⟩ := hget leader (by simp [hg])
  obtain ⟨es, hes⟩ := hget second (by simp [hg])
  have hhead : (gx ++ n :: gy).head? = some leader := by rw [hg, List.head?_cons]
  obtain ⟨l, hl, hlmem, hlead⟩ := h.exists_head hg
  -- Whoever leads, the same is done to the index.
  have hstage : ∀ index, a leader = some ⟨index⟩ →
      (f.anchored a).removeSorted ctx leader n =
        index.elim (.ok (f.anchored (passed a leader l (some ⟨none⟩)), l)) fun i =>
          i.remove ctx (f.anchored (passed a leader l (some ⟨none⟩))) n >>= fun i =>
            if i.count ≤ 1 then do
              let _ ← i.drain
              return (← (f.anchored (passed a leader l (some ⟨none⟩))).setIndex l none, l)
            else do
              return (← (f.anchored (passed a leader l (some ⟨none⟩))).setIndex l (some i), l) := by
    intro index hx
    simp only [removeSorted, anchor?_anchored hel, ok_bind, hx, Option.isNone_some,
      Bool.false_eq_true, if_false, h.secondMember?_eq hg, List.head?_cons,
      index?_anchored hel, Option.bind_some, setIndex_anchored hel, Option.map_some]
    rcases hlead with ⟨rfl, rfl⟩ | ⟨hne, rfl⟩
    · simp only [if_true, handOver_anchored hel hes, ok_bind, passed, Function.update_self,
        Function.update_idem]
      cases index <;> rfl
    · simp only [if_neg hne, pure_bind, passed_self]
      cases index <;> rfl
  cases hx : a leader with
  | none =>
    have hl' : a l = none := by
      by_cases hll : l = leader
      · rw [hll, hx]
      · exact ha.follower leader l hhead hlmem hll
    refine ⟨l, none, leader, hl, ?_, rfl⟩
    simp only [removeSorted, anchor?_anchored hel, ok_bind, hx, passed_none hx hl']
    rfl
  | some x =>
    obtain ⟨index⟩ := x
    rw [hstage index hx]
    cases index with
    | none => exact ⟨l, some ⟨none⟩, l, hl, rfl, rfl⟩
    | some i =>
      obtain ⟨el', hel'⟩ := hget l hlmem
      obtain ⟨i', hhas, hreindex⟩ := h.reindex_eq (a := passed a leader l (some ⟨none⟩))
        (ha.index leader i hhead hx) hel' (passed_target ..)
      rw [update_passed] at hreindex
      exact ⟨l, _, l, hl, hreindex, i', hhas, rfl⟩

theorem removeSorted_eq (h : Leaves ctx f k p node kind n e as gx gy bs)
    (ha : Fading ctx kind (gx ++ n :: gy) a) (hleader : (gx ++ n :: gy).head? = some leader) :
    ∃ b l, (f.anchored a).removeSorted ctx leader n = .ok (f.anchored b, l) ∧
      Shed ctx kind (gx ++ n :: gy) (gx ++ gy) a b ∧ Drops (b n) := by
  have hmem : ∀ m ∈ gx ++ gy, m ∈ gx ++ n :: gy := by
    intro m hm
    simp only [List.mem_append, List.mem_cons] at hm ⊢
    tauto
  obtain ⟨rest, hg⟩ := List.head?_eq_some_iff.1 hleader
  cases rest with
  | nil =>
    have hempty : gx ++ gy = [] := by
      have hlen := congrArg List.length hg
      simp only [List.length_append, List.length_cons, List.length_nil] at hlen
      exact List.eq_nil_of_length_eq_zero (by rw [List.length_append]; omega)
    obtain ⟨el, hel, -⟩ := get?_of_kind? (h.kind?_of_mem (List.mem_of_head? hleader))
    refine ⟨a, leader, ?_, ⟨?_, ?_, fun _ _ => rfl⟩, ha.drops (by simp)⟩
    · simp only [removeSorted, anchor?_anchored hel, ok_bind, h.secondMember?_eq hg]
      split <;> rfl
    · simp [hempty]
    · simp [hempty]
  | cons second rest =>
    obtain ⟨l, x, leader', hl, hremove, hsheds⟩ := h.removeSorted_passes ha hg
    refine ⟨_, leader', hremove, ⟨?_, ?_, ?_⟩, ?_⟩
    · intro leader₁ l₁ hleader₁ hl₁
      cases hleader.symm.trans hleader₁
      cases hl.symm.trans hl₁
      rwa [passed_target]
    · intro l₁ m hl₁ hm hml
      cases hl.symm.trans hl₁
      by_cases hmleader : m = leader
      · subst hmleader
        exact passed_source _ hml
      · rw [passed_of_ne _ hmleader hml]
        exact ha.follower leader m hleader (hmem m hm) hmleader
    · intro m hm
      refine passed_of_ne _ ?_ ?_
      · intro heq
        subst heq
        exact hm (List.mem_of_head? hleader)
      · intro heq
        subst heq
        exact hm (hmem m (List.mem_of_head? hl))
    · -- The leader has passed its anchor on, and no other member has one.
      have hnl : n ≠ l := (h.ne_of_mem (List.mem_of_head? hl)).symm
      by_cases hnleader : n = leader
      · subst hnleader
        rw [passed_source _ hnl]
        exact drops_none
      · rw [passed_of_ne _ hnleader hnl]
        exact ha.drops (by simp)

theorem sound_removed (h : Leaves ctx f k p node kind n e as gx gy bs)
    {a : NodeId → Option Anchor} (hled : Led ctx kind (gx ++ gy) a) (hn : a n = none)
    (hsame : ∀ m, m ∉ gx ++ n :: gy → a m = f.anchorAt m) :
    Sound ctx ((f.removed e.schema p (as ++ gx).getLast? n (gy ++ bs).head?).anchored a)
      (Function.update k p ((as ++ gx) ++ (gy ++ bs))) := by
  have hlaid := h.sound.laid.remove h.split h.lives
  have hre := (regrouped_removed h.split h.lives (as ++ gx).getLast? (gy ++ bs).head?).anchors a
  have hold := anchorAt_removed (f := f) (n := n) (p := p) e.schema (as ++ gx).getLast?
    (gy ++ bs).head?
  have hgroup : (f.removed e.schema p (as ++ gx).getLast? n (gy ++ bs).head?).group
      (Function.update k p ((as ++ gx) ++ (gy ++ bs))) p e.schema = gx ++ gy := by
    rw [group_removed, h.together.filter_left (by simp +contextual),
      h.together.filter_right (by simp +contextual)]
  generalize f.removed e.schema p (as ++ gx).getLast? n (gy ++ bs).head? = f' at *
  generalize Function.update k p ((as ++ gx) ++ (gy ++ bs)) = k' at *
  have hsub : ∀ m ∈ gx ++ gy, m ∈ gx ++ n :: gy := by
    intro m hm
    simp only [List.mem_append, List.mem_cons] at hm ⊢
    tauto
  have hanchor : ∀ m, (f'.anchored a).anchorAt m = if (f'.get? m).isSome then a m else none := by
    intro m
    cases hm : f'.get? m <;> simp [anchorAt, hm]
  refine ⟨hlaid.anchored a, hre.keyed h.noKey h.sound.keyed, ?_, ?_⟩
  · apply hre.ascending h.noKey h.node_eq h.sound.ascending
    intro _
    rw [group_anchored, hgroup]
    exact h.ascending.sublist (List.Sublist.append_left (List.sublist_cons_self n gy) gx)
  · refine hre.anchored h.sound.laid (hlaid.anchored a) h.node_eq h.kind_eq ?_ ?_ ?_
      h.sound.anchored
    · intro m hm _
      rw [h.group_eq] at hm
      rw [hanchor, hsame m hm, ← hold]
      cases hm : f'.get? m <;> simp [anchorAt, hm]
    · rw [group_anchored, hgroup]
      apply hled.congr
      intro m hm
      obtain ⟨em, hem, -⟩ := get?_of_kind? (mem_group.1 (hgroup ▸ hm)).2
      rw [hanchor, hem]
      rfl
    · intro m hm hm'
      rw [group_anchored, hgroup] at hm'
      rw [h.group_eq] at hm
      have hmn : m = n := by
        simp only [List.mem_append, List.mem_cons] at hm hm'
        tauto
      rw [hanchor, hmn, hn, ite_self]

end Leaves

namespace Sound

variable {ctx : Context} {f : Forest} {k : Layout} {p : Option NodeId} {node : SchemaNode}
  {n : NodeId} {e : Element} {xs ys : List NodeId}

theorem exists_leaves (h : Sound ctx f k) (hs : ctx.schema.Built) (hk : k p = xs ++ n :: ys)
    (he : f.get? n = some e) (hnode : ctx.schema.nodes[e.schema]? = some node) {kind : SortKind}
    (hkind : node.sortKind? = some kind) : ∃ as gx gy bs, xs = as ++ gx ∧ ys = gy ++ bs ∧
      Leaves ctx f k p node kind n e as gx gy bs := by
  have hn : f.isOf e.schema n = true := by simp [isOf_of_get? he]
  obtain ⟨as, bs, hx, hy, htogether⟩ := (hk ▸ h.laid.contiguous p e.schema).together_around hn
  exact ⟨as, _, _, bs, hx, hy, ⟨h, hs, hnode, hkind, hk ▸ htogether⟩, he⟩

theorem takeOut_anchored (h : Sound ctx f k) (hs : ctx.schema.Built) (hk : k p = xs ++ n :: ys)
    (he : f.get? n = some e) {a : NodeId → Option Anchor} (hdrop : Drops (a n)) :
    ((f.anchored a).clearAnchor n >>= (takeOut · n)) =
      .ok ((f.removed e.schema p xs.getLast? n ys.head?).anchored (Function.update a n none)) := by
  have hn : (f.anchored (Function.update a n none)).get? n = some { e with anchor := none } := by
    simp [he]
  rw [clearAnchor_anchored he hdrop, ok_bind, (h.laid.anchored _).takeOut_eq hs hk hn]
  exact congrArg Except.ok (anchored_removed ..)

theorem detach_unsorted (h : Sound ctx f k) (hs : ctx.schema.Built) (hk : k p = xs ++ n :: ys)
    (he : f.get? n = some e) (hnode : ctx.schema.nodes[e.schema]? = some node)
    (hkind : node.sortKind? = none) {a : NodeId → Option Anchor} (hdrop : Drops (a n)) :
    (f.anchored a).detach ctx n =
      .ok ((f.removed e.schema p xs.getLast? n ys.head?).anchored (Function.update a n none)) := by
  have hn : (f.anchored a).get? n = some { e with anchor := a n } := by simp [he]
  have hkind? : (f.anchored a).kind? n = some e.schema := by simp [kind?, he]
  simp only [detach, element_of_get? hn, ok_bind, isSorted, schemaNode_eq hkind? hnode, hkind]
  exact h.takeOut_anchored hs hk he hdrop

end Sound

/-- A member of a sorted group is taken out of the index of the group, if there is one, and out of
its place. -/
theorem Leaves.detach_eq {ctx : Context} {f : Forest} {k : Layout} {p : Option NodeId}
    {node : SchemaNode} {kind : SortKind} {n : NodeId} {e : Element} {as gx gy bs : List NodeId}
    {a : NodeId → Option Anchor} (h : Leaves ctx f k p node kind n e as gx gy bs)
    (ha : Fading ctx kind (gx ++ n :: gy) a) :
    ∃ b, (f.anchored a).detach ctx n =
        .ok ((f.removed e.schema p (as ++ gx).getLast? n (gy ++ bs).head?).anchored b) ∧
      b n = none ∧ Shed ctx kind (gx ++ n :: gy) (gx ++ gy) a b := by
  have hmem : n ∈ k p := h.mem_children (by simp)
  obtain ⟨-, hparent⟩ := h.sound.laid.linked_of_mem hmem h.lives
  obtain ⟨leader, rest, hg⟩ := List.exists_cons_of_ne_nil (show gx ++ n :: gy ≠ [] by simp)
  have hleader : (gx ++ n :: gy).head? = some leader := by rw [hg, List.head?_cons]
  obtain ⟨b, l, hremove, hshed, hdrop⟩ := h.removeSorted_eq ha hleader
  have hn : (f.anchored a).get? n = some { e with anchor := a n } := by simp [h.lives]
  have hkind? : (f.anchored a).kind? n = some e.schema := by simp [kind?, h.lives]
  have hrun : (f.anchored a).runStart p e.schema = .ok (some leader) := by
    have hlaid := h.sound.laid.anchored a
    rw [hlaid.runStart_eq (hlaid.alive_of_mem hmem), group_anchored, h.group_eq, hleader]
  refine ⟨Function.update b n none, ?_, Function.update_self .., ?_⟩
  · simp only [detach, element_of_get? hn, ok_bind, isSorted, schemaNode_eq hkind? h.node_eq,
      h.kind_eq, hparent, hrun, hremove]
    exact h.sound.takeOut_anchored h.built h.split h.lives hdrop
  · constructor
    case leader =>
      intro leader₁ l₁ hleader₁ hl₁
      rw [Function.update_of_ne (h.ne_of_mem (List.mem_of_head? hl₁))]
      exact hshed.leader leader₁ l₁ hleader₁ hl₁
    case follower =>
      intro l₁ m hl₁ hm hml
      rw [Function.update_of_ne (h.ne_of_mem hm)]
      exact hshed.follower l₁ m hl₁ hm hml
    case other =>
      intro m hm
      rw [Function.update_of_ne, hshed.other m hm]
      intro heq
      subst heq
      simp at hm

namespace Sound

variable {ctx : Context} {f : Forest} {k : Layout} {p : Option NodeId} {node : SchemaNode}
  {n : NodeId} {e : Element} {xs ys : List NodeId}

theorem detach_spec (h : Sound ctx f k) (hs : ctx.schema.Built) (hk : k p = xs ++ n :: ys)
    (he : f.get? n = some e) (hnode : ctx.schema.nodes[e.schema]? = some node)
    (hkey : ctx.schema.NoKey e.schema) :
    Yields (f.detach ctx n) fun g => Sound ctx g (Function.update k p (xs ++ ys)) ∧
      g.bare = (f.removed e.schema p xs.getLast? n ys.head?).bare := by
  cases hkind : node.sortKind? with
  | none =>
    have hnone : f.anchorAt n = none := by
      cases hx : f.anchorAt n with
      | none => rfl
      | some x =>
        obtain ⟨q, t, node', hnode', hsorted', hmem⟩ := h.anchored.only n x hx
        cases (show f.kind? n = some e.schema by simp [kind?, he]).symm.trans (mem_group.1 hmem).2
        cases hnode.symm.trans hnode'
        simp [hkind] at hsorted'
    have hdetach := h.detach_unsorted hs hk he hnode hkind (a := f.anchorAt) (hnone ▸ drops_none)
    rw [anchored_anchorAt] at hdetach
    refine .intro hdetach ⟨?_, bare_anchored ..⟩
    have hsound := h.remove_unsorted hk he hnode hkey hkind
    rw [← hnone, Function.update_eq_self, anchored_self fun m em hm => ?_]
    · exact hsound
    · rw [← anchorAt_removed (f := f) (p := p) (n := n) e.schema xs.getLast? ys.head?, anchorAt, hm]
      rfl
  | some kind =>
    obtain ⟨as, gx, gy, bs, rfl, rfl, hleaves⟩ := h.exists_leaves hs hk he hnode hkind
    obtain ⟨b, hdetach, hn, hshed⟩ := hleaves.detach_eq hleaves.led.fading
    rw [anchored_anchorAt] at hdetach
    have hled := hshed.led hleaves.led (by simp only [List.length_append, List.length_cons]; omega)
    exact .intro hdetach ⟨hleaves.sound_removed hled hn hshed.other, bare_anchored ..⟩

end Sound

end InstanceTree
