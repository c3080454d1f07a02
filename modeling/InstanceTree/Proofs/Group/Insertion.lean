import InstanceTree.Proofs.Group.Indexing
import InstanceTree.Proofs.Group.Scan

namespace InstanceTree

namespace Forest

variable {f : Forest} {a : NodeId → Option Anchor} {n : NodeId} {e : Element}

theorem anchor?_anchored (he : f.get? n = some e) : (f.anchored a).anchor? n = .ok (a n) := by
  have hn : (f.anchored a).get? n = some { e with anchor := a n } := by simp [he]
  simp only [anchor?, element_of_get? hn, ok_bind]
  rfl

theorem index?_anchored (he : f.get? n = some e) :
    (f.anchored a).index? n = .ok ((a n).bind (·.index)) := by
  simp only [index?, anchor?_anchored he, ok_bind]
  rfl

theorem setIndex_anchored (he : f.get? n = some e) (index : Option Index) :
    (f.anchored a).setIndex n index =
      .ok (f.anchored (Function.update a n ((a n).map fun _ => ⟨index⟩))) :=
  update_anchor_eq he _

theorem setAnchor_anchored (he : f.get? n = some e) (x : Option Anchor) :
    (f.anchored a).setAnchor n x = .ok (f.anchored (Function.update a n x)) :=
  update_anchor_eq he fun _ => x

theorem clearAnchor_anchored (he : f.get? n = some e) (hdrop : Drops (a n)) :
    (f.anchored a).clearAnchor n = .ok (f.anchored (Function.update a n none)) := by
  simp only [clearAnchor, anchor?_anchored he, setAnchor_anchored he, ok_bind, hdrop.eq]
  rfl

theorem handOver_anchored {m : NodeId} {em : Element} (he : f.get? n = some e)
    (hm : f.get? m = some em) :
    (f.anchored a).handOver n m =
      .ok (f.anchored (Function.update (Function.update a n none) m (a n))) := by
  simp only [handOver, anchor?_anchored he, setAnchor_anchored he, setAnchor_anchored hm, ok_bind]

def ensured (a : NodeId → Option Anchor) (n : NodeId) : NodeId → Option Anchor :=
  Function.update a n (some ((a n).getD {}))

theorem ensured_eq_self {x : Anchor} (hx : a n = some x) : ensured a n = a := by
  rw [ensured, hx, Option.getD_some, ← hx, Function.update_eq_self]

theorem look_anchor (he : f.get? n = some e) :
    (Edit.look (anchor? · n)).perform f = .ok (.ok (f.anchorAt n), f) := by
  have hlook := anchor?_anchored (a := f.anchorAt) he
  rw [anchored_anchorAt] at hlook
  exact Edit.perform_look_ok hlook

theorem ensureAnchor_self {ctx : Context} (he : f.get? n = some e) {x : Anchor}
    (hx : f.anchorAt n = some x) : (ensureAnchor ctx n).perform f = .ok (.ok (), f) := by
  rw [ensureAnchor, Edit.perform_bind_ok (look_anchor he), hx]
  rfl

theorem ensureAnchor_anchored {ctx : Context} (hindexes : ctx.indexes = true)
    (he : f.get? n = some e) (hfirst : (f.anchored a).startsRun n = .ok true) :
    (ensureAnchor ctx n).perform (f.anchored a) = .ok (.ok (), f.anchored (ensured a n)) := by
  have hn : (f.anchored a).get? n = some { e with anchor := a n } := by simp [he]
  cases hx : a n with
  | none =>
    rw [ensureAnchor, Edit.perform_bind_ok (look_anchor hn), anchorAt_anchored he, hx]
    simp only [Option.isSome_none, Bool.false_eq_true, if_false]
    rw [Edit.perform_bind_ok (Edit.perform_look_ok hfirst)]
    simp only [hindexes, if_true]
    rw [ensured, hx]
    exact Edit.perform_change_ok (setAnchor_anchored he _)
  | some x =>
    rw [ensured_eq_self hx]
    exact ensureAnchor_self hn ((anchorAt_anchored he).trans hx)

theorem ensureAnchor_plain {ctx : Context} (hplain : ctx.indexes = false) (he : f.get? n = some e)
    (hnone : f.anchorAt n = none) (hfirst : f.startsRun n = .ok true) :
    (ensureAnchor ctx n).perform f = .ok (.error .indexModuleMissing, f) := by
  rw [ensureAnchor, Edit.perform_bind_ok (look_anchor he), hnone]
  simp only [Option.isSome_none, Bool.false_eq_true, if_false]
  rw [Edit.perform_bind_ok (Edit.perform_look_ok hfirst)]
  simp only [hplain]
  rfl

def passed (a : NodeId → Option Anchor) (source target : NodeId) (x : Option Anchor) :
    NodeId → Option Anchor :=
  Function.update (Function.update a source none) target x

theorem passed_target (source target : NodeId) (x : Option Anchor) :
    passed a source target x target = x :=
  Function.update_self ..

theorem passed_of_ne {source target m : NodeId} (x : Option Anchor) (hs : m ≠ source)
    (ht : m ≠ target) : passed a source target x m = a m := by
  rw [passed, Function.update_of_ne ht, Function.update_of_ne hs]

theorem passed_source {source target : NodeId} (x : Option Anchor) (h : source ≠ target) :
    passed a source target x source = none := by
  rw [passed, Function.update_of_ne h, Function.update_self]

theorem passed_self (source : NodeId) (x : Option Anchor) :
    passed a source source x = Function.update a source x :=
  Function.update_idem ..

theorem passed_none {source target : NodeId} (hs : a source = none) (ht : a target = none) :
    passed a source target none = a := by
  have hsource : Function.update a source none = a := by
    rw [← hs, Function.update_eq_self]
  rw [passed, hsource, ← ht, Function.update_eq_self]

theorem update_passed (source target : NodeId) (x y : Option Anchor) :
    Function.update (passed a source target x) target y = passed a source target y := by
  rw [passed, passed, Function.update_idem]

theorem passed_update (source target : NodeId) (x y : Option Anchor) :
    passed (Function.update a source x) source target y = passed a source target y := by
  rw [passed, passed, Function.update_idem]

theorem exists_get?_placed {m : NodeId} {em : Element} (hm : f.get? m = some em) (t : SchemaId)
    (p prev : Option NodeId) (n : NodeId) (next : Option NodeId) :
    ∃ e, (f.placed t p prev n next).get? m = some e := by
  rw [placed, get?_rewired, hm]
  exact ⟨_, rfl⟩

end Forest

open Forest

/-- Of a sorted group only the first member may have an anchor. An index there is one of the group,
but both may be missing. -/
structure Fading (ctx : Context) (kind : SortKind) (g : List NodeId) (a : NodeId → Option Anchor) :
    Prop where
  index : ∀ leader i, g.head? = some leader → a leader = some ⟨some i⟩ → i.Has ctx kind g
  follower : ∀ leader m, g.head? = some leader → m ∈ g → m ≠ leader → a m = none

section Fading

variable {ctx : Context} {kind : SortKind} {g : List NodeId} {a : NodeId → Option Anchor}
  {leader l : NodeId}

theorem Led.fading (h : Led ctx kind g a) : Fading ctx kind g a := by
  refine ⟨?_, fun leader m hleader hm hml => h.follower_eq hleader hm hml⟩
  intro leader i hleader hi
  cases hindexes : ctx.indexes with
  | false => cases (h.plain_eq hindexes (List.mem_of_head? hleader)).symm.trans hi
  | true =>
    obtain ⟨x, hx, hindex⟩ := h.leader_eq hindexes hleader
    cases hx.symm.trans hi
    exact (indexes_some.1 hindex).2

theorem Fading.drops (h : Fading ctx kind g a) {n : NodeId} (hn : n ∈ g) : Drops (a n) := by
  obtain ⟨leader, rest, rfl⟩ := List.exists_cons_of_ne_nil (List.ne_nil_of_mem hn)
  by_cases hleader : n = leader
  · subst hleader
    cases hx : a n with
    | none => exact drops_none
    | some x =>
      obtain ⟨index⟩ := x
      cases index with
      | none => exact drops_bare
      | some i => exact (h.index n i rfl hx).drops
  · rw [h.follower leader n rfl hn hleader]
    exact drops_none

theorem Sound.tidy {f : Forest} {k : Layout} (h : Sound ctx f k) : f.Tidy := by
  intro n e he
  cases hx : e.anchor with
  | none => exact drops_none
  | some x =>
    have hanchor : f.anchorAt n = some x := by simp [anchorAt, he, hx]
    obtain ⟨p, t, node, hnode, hsorted, hn⟩ := h.anchored.only n x hanchor
    obtain ⟨kind, hkind⟩ := Option.isSome_iff_exists.1 hsorted
    rw [← hanchor]
    exact (h.anchored.led p t node kind hnode hkind).fading.drops hn

theorem Fading.ensured (h : Fading ctx kind g a) (hleader : g.head? = some leader) :
    Fading ctx kind g (ensured a leader) := by
  constructor
  · intro leader' i hleader' hi
    cases hleader.symm.trans hleader'
    rw [Forest.ensured, Function.update_self] at hi
    cases hx : a leader with
    | none =>
      rw [hx] at hi
      cases hi
    | some x =>
      rw [hx] at hi
      exact h.index leader i hleader (hx.trans hi)
  · intro leader' m hleader' hm hml
    cases hleader.symm.trans hleader'
    rw [Forest.ensured, Function.update_of_ne hml]
    exact h.follower leader m hleader hm hml

theorem led_passed (hindexes : ctx.indexes = true) (hl : g.head? = some l) {x : Anchor}
    (hx : Indexes ctx kind g x.index) (ha : ∀ m ∈ g, m ≠ l → m ≠ leader → a m = none) :
    Led ctx kind g (passed a leader l (some x)) := by
  apply led_of_leader hl (passed_target ..) hindexes hx
  intro m hm hml
  by_cases hmleader : m = leader
  · subst hmleader
    exact passed_source _ hml
  · rw [passed_of_ne _ hmleader hml]
    exact ha m hm hml hmleader

end Fading

namespace Gathers

variable {ctx : Context} {f : Forest} {k : Layout} {p : Option NodeId} {node : SchemaNode}
  {kind : SortKind} {t : SchemaId} {leader : NodeId} {as g bs : List NodeId}

theorem fill?_eq (h : Gathers ctx f k p node kind t as g bs) (a : NodeId → Option Anchor)
    {past ms : List NodeId} (hg : g = past ++ ms) {i : Index} (hi : i.Has ctx kind past)
    {fuel : Nat} (hfuel : (ms ++ bs).length ≤ fuel) :
    (∃ limit, ctx.options.indexLimit = some limit ∧ limit < g.length ∧
      Index.fill? ctx (f.anchored a) t fuel i (ms ++ bs).head? = .ok none) ∨
    ∃ i', Index.fill? ctx (f.anchored a) t fuel i (ms ++ bs).head? = .ok (some i') ∧
      i'.Has ctx kind g := by
  have hlaid := h.sound.laid.anchored a
  induction ms generalizing past i fuel with
  | nil =>
    rw [List.append_nil] at hg
    refine .inr ⟨i, ?_, hg ▸ hi⟩
    cases bs with
    | nil => cases fuel <;> rfl
    | cons b bs =>
      obtain ⟨fuel, rfl⟩ : ∃ j, fuel = j + 1 := ⟨fuel - 1, by simp at hfuel; omega⟩
      obtain ⟨eb, heb, -⟩ := hlaid.exists_of_mem (p := p) (n := b) (by simp [h.together.eq])
      have hother : eb.schema ≠ t := by
        have hb := h.together.after b (by simp)
        rwa [← isOf_anchored f a, isOf_of_get? heb, decide_eq_false_iff_not] at hb
      simp only [List.nil_append, List.head?_cons, Index.fill?, schemaOf_of_get? heb, ok_bind,
        if_pos hother]
      rfl
  | cons m ms ih =>
    obtain ⟨fuel, rfl⟩ : ∃ j, fuel = j + 1 := ⟨fuel - 1, by simp at hfuel; omega⟩
    have hm : m ∈ g := by simp [hg]
    have hsplit : k p = (as ++ past) ++ m :: (ms ++ bs) := by simp [h.together.eq, hg]
    obtain ⟨em, hem, -, -, -, hnext⟩ := hlaid.links p (as ++ past) m (ms ++ bs) hsplit
    have hschema : em.schema = t := by
      have hof := h.together.within m hm
      rwa [← isOf_anchored f a, isOf_of_get? hem, decide_eq_true_eq] at hof
    have hasc := h.ascending
    rw [hg, List.pairwise_append, List.pairwise_cons] at hasc
    have hpast : ∀ m' ∈ past, f.kind? m' = some t :=
      fun m' hm' => h.kind?_of_mem (by simp [hg, hm'])
    have hi' : i.Has ctx kind (past ++ []) := by rwa [List.append_nil]
    have hlt : (past ++ []).length < handleCount := by
      have hle := h.length_le
      simp only [hg, List.length_append, List.length_cons, List.length_nil] at hle ⊢
      omega
    have hinsert := hi'.insert?_eq hlt (h.sorts a) (by simpa using hpast) (h.kind?_of_mem hm)
      (by simpa using hasc.1) (fun m' hm' => hasc.2.2 m' hm' m (by simp)) (by simp)
    simp only [List.cons_append, List.head?_cons, Index.fill?, schemaOf_of_get? hem, ok_bind,
      hschema, ne_eq, not_true_eq_false, if_false]
    rcases hinsert with ⟨limit, hlimit, hle, hfull⟩ | ⟨i', _, hi', hhas, -⟩
    · refine .inl ⟨limit, hlimit, ?_, ?_⟩
      · simp only [List.append_nil] at hle
        simp only [hg, List.length_append, List.length_cons]
        omega
      · simp only [hfull, ok_bind]
        rfl
    · simp only [hi', ok_bind, element_of_get? hem, hnext]
      have hpassed : g = (past ++ [m]) ++ ms := by simp [hg]
      exact ih hpassed hhas (by simpa using hfuel)

/-- An index can be built for a group, unless there is no room in it for all members. -/
theorem ofGroup?_eq (h : Gathers ctx f k p node kind t as g bs) (hleader : g.head? = some leader)
    (a : NodeId → Option Anchor) :
    (∃ limit, ctx.options.indexLimit = some limit ∧ limit < g.length ∧
      Index.ofGroup? ctx (f.anchored a) kind leader = .ok none) ∨
    ∃ i, Index.ofGroup? ctx (f.anchored a) kind leader = .ok (some i) ∧ i.Has ctx kind g := by
  have hkind : (f.anchored a).kind? leader = some t := by
    rw [kind?_anchored]
    exact h.kind?_of_mem (List.mem_of_head? hleader)
  have hfuel : (g ++ bs).length ≤ (f.anchored a).steps := by
    have hlen := (h.sound.laid.anchored a).length_le p
    simp only [h.together.eq, List.length_append] at hlen ⊢
    simp only [steps]
    omega
  have hhead : (g ++ bs).head? = some leader := by
    rw [List.head?_append, hleader]
    rfl
  have hfill := h.fill?_eq a (List.nil_append g).symm (Index.has_empty ctx kind) hfuel
  rw [hhead] at hfill
  simpa only [Index.ofGroup?, schemaOf_eq_ok.2 hkind, ok_bind] using hfill

theorem startsRun_eq (h : Gathers ctx f k p node kind t as g bs) (hleader : g.head? = some leader)
    (a : NodeId → Option Anchor) : (f.anchored a).startsRun leader = .ok true := by
  obtain ⟨el, hel, rfl⟩ := get?_of_kind? (h.kind?_of_mem (List.mem_of_head? hleader))
  obtain ⟨rest, rfl⟩ := List.head?_eq_some_iff.1 hleader
  have hel' : (f.anchored a).get? leader = some { el with anchor := a leader } := by simp [hel]
  have hsplit : k p = as ++ leader :: (rest ++ bs) := h.together.eq
  refine (h.sound.laid.anchored a).startsRun_eq hsplit hel' ?_
  simpa using h.together.before

theorem obtainIndex_eq (h : Gathers ctx f k p node kind t as g bs) (hleader : g.head? = some leader)
    {a : NodeId → Option Anchor} (ha : Fading ctx kind g a) {x : Anchor} (hx : a leader = some x) :
    (∃ limit, ctx.options.indexLimit = some limit ∧ limit < g.length ∧
      (obtainIndex ctx kind leader).perform (f.anchored a) =
        .ok (.error .indexFull, f.anchored a)) ∨
    ∃ i fresh, (obtainIndex ctx kind leader).perform (f.anchored a) =
        .ok (.ok (i, fresh), f.anchored (Function.update a leader (some ⟨none⟩))) ∧
      i.Has ctx kind g ∧ x = ⟨if fresh then none else some i⟩ := by
  obtain ⟨el, hel, -⟩ := get?_of_kind? (h.kind?_of_mem (List.mem_of_head? hleader))
  obtain ⟨index⟩ := x
  have hlook := index?_anchored (a := a) hel
  rw [hx] at hlook
  rw [obtainIndex, Edit.perform_bind_ok (Edit.perform_look_ok hlook)]
  cases index with
  | some i =>
    have hset := setIndex_anchored (a := a) hel none
    rw [hx] at hset
    refine .inr ⟨i, false, ?_, ha.index leader i hleader hx, rfl⟩
    exact Edit.perform_bind_ok (Edit.perform_change_ok hset)
  | none =>
    simp only [Option.bind_some]
    rcases h.ofGroup?_eq hleader a with ⟨limit, hlimit, hle, hfull⟩ | ⟨i, hi, hhas⟩
    · refine .inl ⟨limit, hlimit, hle, ?_⟩
      rw [Edit.perform_bind_ok (Edit.perform_look_ok hfull)]
      rfl
    · refine .inr ⟨i, true, ?_, hhas, rfl⟩
      rw [← hx, Function.update_eq_self, Edit.perform_bind_ok (Edit.perform_look_ok hi)]
      rfl

end Gathers

namespace Joins

variable {ctx : Context} {f : Forest} {k : Layout} {p : Option NodeId} {node : SchemaNode}
  {kind : SortKind} {n leader : NodeId} {e : Element} {as gx gy bs : List NodeId}
  {a : NodeId → Option Anchor}

theorem insert?_eq (h : Joins ctx f k p node kind n e as gx gy bs) {i : Index}
    (hi : i.Has ctx kind (gx ++ gy)) (a : NodeId → Option Anchor) :
    (∃ limit, ctx.options.indexLimit = some limit ∧ limit ≤ (gx ++ gy).length ∧
      i.insert? ctx (f.anchored a) n = .ok none) ∨
    ∃ i' m, i.insert? ctx (f.anchored a) n = .ok (some (i', m)) ∧
      i'.Has ctx kind (gx ++ n :: gy) ∧ i'.predecessor? m = .ok gx.getLast? :=
  hi.insert?_eq h.length_lt (h.sorts a) (fun _ hm => h.kind?_of_mem hm) h.kind?_eq h.ascending
    h.ahead h.behind

theorem placeIndexed_eq (h : Joins ctx f k p node kind n e as gx gy bs)
    (hleader : (gx ++ gy).head? = some leader) (ha : a leader = some ⟨none⟩) {i : Index} {m : Nat}
    (hm : i.predecessor? m = .ok gx.getLast?) :
    ∃ l, (gx ++ n :: gy).head? = some l ∧ (placeIndexed leader n i m).perform (f.anchored a) =
      .ok (.ok l, (f.placed e.schema p (as ++ gx).getLast? n (gy ++ bs).head?).anchored
        (passed a leader l (some ⟨some i⟩))) := by
  have hmem := List.mem_of_head? hleader
  obtain ⟨el, hel, -⟩ := get?_of_kind? (h.kind?_of_mem hmem)
  obtain ⟨el', hel'⟩ := exists_get?_placed hel e.schema p (as ++ gx).getLast? n (gy ++ bs).head?
  obtain ⟨en, hen⟩ := exists_get?_placed h.lives e.schema p (as ++ gx).getLast? n
    (gy ++ bs).head?
  have hlaid := h.sound.laid.anchored a
  have hn : (f.anchored a).get? n = some { e with anchor := a n } := by simp [h.lives]
  rw [placeIndexed, Edit.perform_bind, Edit.perform_look, hm, ok_bind, ok_bind]
  rcases List.eq_nil_or_concat gx with rfl | ⟨gx, last, rfl⟩
  · have hhead : (gy ++ bs).head? = some leader := by
      rw [List.head?_append, show gy.head? = some leader from hleader]
      rfl
    have hsplice := hlaid.spliceBefore_eq h.split hhead hn h.loose
    rw [anchored_placed] at hsplice
    refine ⟨n, rfl, ?_⟩
    simp only [List.getLast?_nil, Edit.perform_bind, Edit.perform_change, hsplice, ok_bind,
      handOver_anchored hel' hen, setIndex_anchored hen, Function.update_self, ha,
      Function.update_idem]
    rfl
  · have hlast : (as ++ gx.concat last).getLast? = some last := by simp [← List.append_assoc]
    have hsplice := hlaid.spliceAfter_eq h.split hlast hn h.loose
    rw [anchored_placed] at hsplice
    refine ⟨leader, ?_, ?_⟩
    · cases gx <;> simpa using hleader
    · simp only [List.concat_eq_append, List.getLast?_concat] at hsplice hel' ⊢
      simp only [Edit.perform_bind, Edit.perform_change, hsplice, ok_bind, setIndex_anchored hel',
        ha, passed_self]
      rfl

theorem insertSorted_perform (h : Joins ctx f k p node kind n e as gx gy bs)
    (hleader : (gx ++ gy).head? = some leader) (hn : a n = none) :
    (insertSorted ctx leader n).perform (f.anchored a) =
      (ensureAnchor ctx leader >>= fun _ => obtainIndex ctx kind leader >>= fun (i, fresh) =>
        Edit.look (fun f => i.insert? ctx f n) >>= fun
          | some (i, m) => placeIndexed leader n i m
          | none => do
            unless fresh do
              Edit.change (setIndex · leader (some i))
            Edit.refuse .indexFull).perform (f.anchored a) := by
  have hkind : ∀ {m t}, f.kind? m = some t → (f.anchored a).kind? m = some t := by
    intro m t hm
    rwa [kind?_anchored]
  have hschema := schemaOf_eq_ok.2 (hkind (h.kind?_of_mem (List.mem_of_head? hleader)))
  have hlives : (f.anchored a).get? n = some { e with anchor := a n } := by simp [h.lives]
  have hclear : (f.anchored a).clearStale n = .ok (f.anchored a) := by
    have hdrop : Drops (a n) := hn ▸ drops_none
    have hcleared := clearAnchor_anchored h.lives hdrop
    rw [← hn, Function.update_eq_self] at hcleared
    simp only [clearStale, index?_anchored h.lives, hn, ok_bind, hcleared]
    rfl
  rw [insertSorted, Edit.perform_bind_ok (Edit.perform_look_ok (element_of_get? hlives))]
  simp only [h.loose, Bool.false_eq_true, if_false]
  rw [Edit.perform_bind_ok (Edit.perform_look_ok hschema),
    Edit.perform_bind_ok (Edit.perform_look_ok (schemaOf_eq_ok.2 (hkind h.kind?_eq)))]
  simp only [ne_eq, not_true_eq_false, if_false]
  rw [Edit.perform_bind_ok (Edit.perform_look_ok (schemaNode_eq (hkind h.kind?_eq) h.node_eq))]
  simp only [h.kind_eq]
  exact Edit.perform_bind_ok (Edit.perform_change_ok hclear)

theorem insertSorted_eq (h : Joins ctx f k p node kind n e as gx gy bs)
    (hindexes : ctx.indexes = true) (hleader : (gx ++ gy).head? = some leader)
    (ha : Fading ctx kind (gx ++ gy) a) (hn : a n = none) :
    (∃ limit, ctx.options.indexLimit = some limit ∧ limit ≤ (gx ++ gy).length ∧
      (insertSorted ctx leader n).perform (f.anchored a) =
        .ok (.error .indexFull, f.anchored (ensured a leader))) ∨
    ∃ l i, (gx ++ n :: gy).head? = some l ∧ (insertSorted ctx leader n).perform (f.anchored a) =
        .ok (.ok l, (f.placed e.schema p (as ++ gx).getLast? n (gy ++ bs).head?).anchored
          (passed a leader l (some ⟨some i⟩))) ∧ i.Has ctx kind (gx ++ n :: gy) := by
  obtain ⟨el, hel, -⟩ := get?_of_kind? (h.kind?_of_mem (List.mem_of_head? hleader))
  rw [h.insertSorted_perform hleader hn, 
    Edit.perform_bind_ok (ensureAnchor_anchored hindexes hel (h.startsRun_eq hleader a))]
  obtain ⟨x, hx⟩ : ∃ x, ensured a leader leader = some x := ⟨_, Function.update_self ..⟩
  rcases h.obtainIndex_eq hleader (ha.ensured hleader) hx with
    ⟨limit, hlimit, hlt, hobtain⟩ | ⟨i, fresh, hobtain, hi, rfl⟩
  · exact .inl ⟨limit, hlimit, Nat.le_of_lt hlt, Edit.perform_bind_error hobtain⟩
  · rw [Edit.perform_bind_ok hobtain]
    dsimp only
    rcases h.insert?_eq hi (Function.update (ensured a leader) leader (some ⟨none⟩)) with
      ⟨limit, hlimit, hle, hfull⟩ | ⟨i', m, hinsert, hi', hm⟩
    · refine .inl ⟨limit, hlimit, hle, ?_⟩
      rw [Edit.perform_bind_ok (Edit.perform_look_ok hfull)]
      cases fresh with
      | true =>
        rw [if_pos rfl] at hx
        rw [← hx, Function.update_eq_self]
        rfl
      | false =>
        rw [if_neg (by decide)] at hx
        have hset := setIndex_anchored
          (a := Function.update (ensured a leader) leader (some ⟨none⟩)) hel (some i)
        rw [Function.update_self, Function.update_idem, Option.map_some, ← hx,
          Function.update_eq_self] at hset
        exact Edit.perform_bind_ok (Edit.perform_change_ok hset)
    · rw [Edit.perform_bind_ok (Edit.perform_look_ok hinsert)]
      obtain ⟨l, hl, hplace⟩ := h.placeIndexed_eq hleader
        (a := Function.update (ensured a leader) leader (some ⟨none⟩)) (Function.update_self ..) hm
        (i := i')
      rw [ensured, Function.update_idem, passed_update] at hplace
      rw [ensured, Function.update_idem]
      exact .inr ⟨l, i', hl, hplace, hi'⟩

theorem insertSorted_plain (h : Joins ctx f k p node kind n e as gx gy bs)
    (hplain : ctx.indexes = false) (hleader : (gx ++ gy).head? = some leader) :
    (insertSorted ctx leader n).perform f = .ok (.error .indexModuleMissing, f) := by
  have hmem := List.mem_of_head? hleader
  obtain ⟨el, hel, -⟩ := get?_of_kind? (h.kind?_of_mem hmem)
  have hperform := h.insertSorted_perform hleader h.anchorAt_eq
  rw [anchored_anchorAt] at hperform
  rw [hperform]
  have hfirst := h.startsRun_eq hleader f.anchorAt
  rw [anchored_anchorAt] at hfirst
  exact Edit.perform_bind_error
    (ensureAnchor_plain hplain hel (h.led.plain_eq hplain hmem) hfirst)

theorem insertIntoGroup_plain (h : Joins ctx f k p node kind n e as gx gy bs)
    (hplain : ctx.indexes = false) (hleader : (gx ++ gy).head? = some leader) :
    (insertIntoGroup ctx leader n).perform f =
      .ok (.ok (), f.placed e.schema p (as ++ gx).getLast? n (gy ++ bs).head?) := by
  rw [insertIntoGroup, Edit.perform_tryCatch,
    Edit.perform_bind_error (h.insertSorted_plain hplain hleader)]
  exact h.insertByScan_eq hleader

/-- Through an index a new member takes its place, unless it is refused at the limit; then the group
has the anchor that it should have, whether it had it before or not. -/
theorem insertIntoGroup_indexed (h : Joins ctx f k p node kind n e as gx gy bs)
    (hindexes : ctx.indexes = true) (hleader : (gx ++ gy).head? = some leader)
    (ha : Fading ctx kind (gx ++ gy) a) (hn : a n = none) :
    (∃ limit, ctx.options.indexLimit = some limit ∧ limit ≤ (gx ++ gy).length ∧
      (insertIntoGroup ctx leader n).perform (f.anchored a) =
        .ok (.error .indexFull, f.anchored (ensured a leader))) ∨
    ∃ b, (insertIntoGroup ctx leader n).perform (f.anchored a) =
        .ok (.ok (), (f.placed e.schema p (as ++ gx).getLast? n (gy ++ bs).head?).anchored b) ∧
      Led ctx kind (gx ++ n :: gy) b ∧ ∀ m, m ∉ gx ++ n :: gy → b m = a m := by
  have hmem : ∀ m, m ∈ gx ++ n :: gy ↔ m = n ∨ m ∈ gx ++ gy := by
    intro m
    simp only [List.mem_append, List.mem_cons]
    tauto
  rw [insertIntoGroup, Edit.perform_tryCatch, Edit.perform_bind]
  rcases h.insertSorted_eq hindexes hleader ha hn with
    ⟨limit, hlimit, hle, hfull⟩ | ⟨l, i, hl, hinsert, hi⟩
  · refine .inl ⟨limit, hlimit, hle, ?_⟩
    rw [hfull]
    rfl
  · refine .inr ⟨passed a leader l (some ⟨some i⟩), ?_, led_passed hindexes hl ?_ ?_, ?_⟩
    · rw [hinsert]
      rfl
    · refine indexes_some.2 ⟨?_, hi⟩
      have hpos := List.length_pos_of_mem (List.mem_of_head? hleader)
      simp only [List.length_append, List.length_cons] at hpos ⊢
      omega
    · intro m hm hml hmleader
      rcases (hmem m).1 hm with rfl | hm
      · exact hn
      · exact ha.follower leader m hleader hm hmleader
    · intro m hm
      refine passed_of_ne _ ?_ ?_
      · intro heq
        subst heq
        exact hm ((hmem m).2 (.inr (List.mem_of_head? hleader)))
      · intro heq
        subst heq
        exact hm (List.mem_of_head? hl)

/-- A new member takes the same place whether there are indexes or not; with an index it may be
refused, but only at the limit. -/
theorem insertIntoGroup_eq (h : Joins ctx f k p node kind n e as gx gy bs)
    (hleader : (gx ++ gy).head? = some leader) :
    (∃ limit, ctx.options.indexLimit = some limit ∧ limit ≤ (gx ++ gy).length ∧
      (insertIntoGroup ctx leader n).perform f = .ok (.error .indexFull, f)) ∨
    ∃ a, (insertIntoGroup ctx leader n).perform f =
        .ok (.ok (), (f.placed e.schema p (as ++ gx).getLast? n (gy ++ bs).head?).anchored a) ∧
      Led ctx kind (gx ++ n :: gy) a ∧ ∀ m, m ∉ gx ++ n :: gy → a m = f.anchorAt m := by
  cases hindexes : ctx.indexes with
  | true =>
    obtain ⟨x, hx, -⟩ := h.led.leader_eq hindexes hleader
    have hindexed := h.insertIntoGroup_indexed hindexes hleader h.led.fading h.anchorAt_eq
    rwa [ensured_eq_self hx, anchored_anchorAt] at hindexed
  | false =>
    refine .inr ⟨f.anchorAt, ?_, ?_, fun _ _ => rfl⟩
    · rw [h.insertIntoGroup_plain hindexes hleader, anchored_self fun m em hm => ?_]
      have hplaced : (f.placed e.schema p (as ++ gx).getLast? n (gy ++ bs).head?).anchorAt m =
          f.anchorAt m := anchorAt_placed ..
      rw [← hplaced, anchorAt, hm]
      rfl
    · apply led_of_plain hindexes
      intro m hm
      by_cases hmn : m = n
      · rw [hmn, h.anchorAt_eq]
      · apply h.led.plain_eq hindexes
        simp only [List.mem_append, List.mem_cons] at hm ⊢
        tauto

end Joins

end InstanceTree
