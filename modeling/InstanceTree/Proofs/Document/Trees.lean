import InstanceTree.Proofs.Document.Extension

namespace InstanceTree

open Forest

/-- What an instance holds, wherever it is stored: a value, or the instances below it by their
schema nodes, in order. -/
inductive Tree where
  | node (value : Option Value) (below : List (SchemaId × List Tree))

namespace Tree

def value : Tree → Option Value
  | node v _ => v

def grove : Tree → List (SchemaId × List Tree)
  | node _ ts => ts

def leaf (v : Value) : Tree :=
  node (some v) []

end Tree

abbrev Grove := List (SchemaId × List Tree)

def Grove.instances : Grove → SchemaId → List Tree
  | [], _ => []
  | (u, xs) :: rest, t => if u = t then xs else instances rest t

namespace Forest

mutual

/-- An element holds what a tree says. -/
def Depicts (f : Forest) : NodeId → Tree → Prop
  | n, .node value below => f.valueAt n = value ∧ Bears f (f.layout (some n)) below

def DepictsAll (f : Forest) (t : SchemaId) : List NodeId → List Tree → Prop
  | [], [] => True
  | n :: ns, x :: xs => f.kind? n = some t ∧ Depicts f n x ∧ DepictsAll f t ns xs
  | _, _ => False

/-- Some siblings are what a grove says, which has no schema node twice and none without
instances. -/
def Bears (f : Forest) : List NodeId → List (SchemaId × List Tree) → Prop
  | ns, [] => ns = []
  | ns, (t, xs) :: rest => ∃ ms ns', ns = ms ++ ns' ∧ ms ≠ [] ∧ (∀ m ∈ ns', f.isOf t m = false) ∧
    DepictsAll f t ms xs ∧ Bears f ns' rest

end

variable {f g : Forest} {t : SchemaId} {n : NodeId} {ns ms : List NodeId} {x : Tree}
  {xs ys : List Tree} {a b : Grove}

theorem depicts_iff : Depicts f n x ↔ f.valueAt n = x.value ∧ Bears f (f.layout (some n)) x.grove :=
  match x with
  | .node _ _ => Iff.rfl

theorem depictsAll_iff : DepictsAll f t ns xs ↔
    List.Forall₂ (fun n x => f.kind? n = some t ∧ Depicts f n x) ns xs := by
  induction ns generalizing xs with
  | nil => cases xs <;> simp [DepictsAll]
  | cons n ns ih => cases xs <;> simp [DepictsAll, ih, and_assoc]

theorem DepictsAll.kind_eq (h : DepictsAll f t ns xs) : ∀ m ∈ ns, f.kind? m = some t := by
  rw [depictsAll_iff] at h
  intro m hm
  induction h with
  | nil => cases hm
  | cons hd _ ih =>
    rcases List.mem_cons.1 hm with rfl | hm
    · exact hd.1
    · exact ih hm

theorem DepictsAll.isOf_eq (h : DepictsAll f t ns xs) {u : SchemaId} :
    ∀ m ∈ ns, f.isOf u m = decide (u = t) := by
  intro m hm
  simp [isOf, h.kind_eq m hm, eq_comm]

theorem DepictsAll.length_eq (h : DepictsAll f t ns xs) : ns.length = xs.length :=
  (depictsAll_iff.1 h).length_eq

theorem DepictsAll.append (h : DepictsAll f t ns xs) (h' : DepictsAll f t ms ys) :
    DepictsAll f t (ns ++ ms) (xs ++ ys) := by
  rw [depictsAll_iff] at h h' ⊢
  exact List.rel_append h h'

theorem DepictsAll.split (h : DepictsAll f t (ns ++ ms) xs) :
    ∃ us vs, xs = us ++ vs ∧ DepictsAll f t ns us ∧ DepictsAll f t ms vs := by
  induction ns generalizing xs with
  | nil => exact ⟨[], xs, rfl, trivial, h⟩
  | cons n ns ih =>
    cases xs with
    | nil => exact h.elim
    | cons x xs =>
      obtain ⟨hn, hx, hrest⟩ := h
      obtain ⟨us, vs, rfl, hus, hvs⟩ := ih hrest
      exact ⟨x :: us, vs, rfl, ⟨hn, hx, hus⟩, hvs⟩

theorem DepictsAll.exists_of_mem (h : DepictsAll f t ns xs) (hx : x ∈ xs) :
    ∃ n ∈ ns, f.kind? n = some t ∧ Depicts f n x := by
  rw [depictsAll_iff] at h
  induction h with
  | nil => cases hx
  | cons hd _ ih =>
    rcases List.mem_cons.1 hx with rfl | hx
    · exact ⟨_, by simp, hd⟩
    · obtain ⟨n, hn, hdepicts⟩ := ih hx
      exact ⟨n, by simp [hn], hdepicts⟩

theorem DepictsAll.head_value (h : DepictsAll f t ns xs) :
    ns.head?.bind f.valueAt = xs.head?.bind Tree.value := by
  cases ns with
  | nil =>
    cases xs with
    | nil => rfl
    | cons x xs => exact h.elim
  | cons n ns =>
    cases xs with
    | nil => exact h.elim
    | cons x xs => exact (depicts_iff.1 h.2.1).1

theorem DepictsAll.filter_between (h : DepictsAll f t ms xs) {ls : List NodeId}
    (hls : ∀ m ∈ ls, f.isOf t m = false) (hns : ∀ m ∈ ns, f.isOf t m = false) :
    (ls ++ (ms ++ ns)).filter (f.isOf t) = ms := by
  have hfront : ls.filter (f.isOf t) = [] :=
    List.filter_eq_nil_iff.2 fun m hm => by simp [hls m hm]
  have hself : ms.filter (f.isOf t) = ms :=
    List.filter_eq_self.2 fun m hm => by simp [h.isOf_eq m hm]
  have hbehind : ns.filter (f.isOf t) = [] :=
    List.filter_eq_nil_iff.2 fun m hm => by simp [hns m hm]
  rw [List.filter_append, List.filter_append, hfront, hself, hbehind, List.append_nil,
    List.nil_append]

theorem bears_nil : Bears f [] a ↔ a = [] := by
  cases a with
  | nil => simp [Bears]
  | cons group rest =>
    obtain ⟨t, xs⟩ := group
    simp only [Bears, reduceCtorEq, iff_false]
    rintro ⟨ms, ns', heq, hne, -⟩
    exact hne (List.append_eq_nil_iff.1 heq.symm).1

theorem Bears.kind_mem (h : Bears f ns a) : ∀ m ∈ ns, ∃ t ∈ a.map Prod.fst, f.kind? m = some t := by
  induction a generalizing ns with
  | nil =>
    cases h
    simp
  | cons group rest ih =>
    obtain ⟨t, xs⟩ := group
    obtain ⟨us, vs, rfl, -, -, hus, hvs⟩ := h
    intro m hm
    rcases List.mem_append.1 hm with hm | hm
    · exact ⟨t, by simp, hus.kind_eq m hm⟩
    · obtain ⟨t', ht', hkind⟩ := ih hvs m hm
      exact ⟨t', by simp [ht'], hkind⟩

theorem Bears.exists_of_kind (h : Bears f ns a) (ht : t ∈ a.map Prod.fst) :
    ∃ m ∈ ns, f.kind? m = some t := by
  induction a generalizing ns with
  | nil => cases ht
  | cons group rest ih =>
    obtain ⟨u, xs⟩ := group
    obtain ⟨us, vs, rfl, hne, -, hus, hvs⟩ := h
    rcases List.mem_cons.1 ht with rfl | ht
    · obtain ⟨m, hm⟩ := List.exists_mem_of_ne_nil _ hne
      exact ⟨m, by simp [hm], hus.kind_eq m hm⟩
    · obtain ⟨m, hm, hkind⟩ := ih hvs ht
      exact ⟨m, by simp [hm], hkind⟩

theorem Bears.not_mem (h : Bears f ns a) (hns : ∀ m ∈ ns, f.isOf t m = false) :
    t ∉ a.map Prod.fst := by
  intro ht
  obtain ⟨m, hm, hkind⟩ := h.exists_of_kind ht
  have hout := hns m hm
  simp [isOf, hkind] at hout

theorem DepictsAll.before (h : DepictsAll f t ms xs) {ls : List NodeId}
    (hls : ∀ u ∈ ((t, xs) :: a).map Prod.fst, ∀ m ∈ ls, f.isOf u m = false)
    (ht : t ∉ a.map Prod.fst) : ∀ u ∈ a.map Prod.fst, ∀ m ∈ ls ++ ms, f.isOf u m = false := by
  intro u hu m hm
  rcases List.mem_append.1 hm with hm | hm
  · exact hls u (List.mem_cons_of_mem _ hu) m hm
  · rw [h.isOf_eq m hm, decide_eq_false_iff_not]
    rintro rfl
    exact ht hu

theorem Bears.append (ha : Bears f ns a) (hb : Bears f ms b)
    (hab : ∀ t ∈ a.map Prod.fst, ∀ m ∈ ms, f.isOf t m = false) : Bears f (ns ++ ms) (a ++ b) := by
  induction a generalizing ns with
  | nil =>
    cases ha
    exact hb
  | cons group rest ih =>
    obtain ⟨t, xs⟩ := group
    obtain ⟨us, vs, rfl, hne, hother, hus, hvs⟩ := ha
    refine ⟨us, vs ++ ms, by simp, hne, fun m hm => ?_, hus, ih hvs fun u hu =>
      hab u (by simp [hu])⟩
    rcases List.mem_append.1 hm with hm | hm
    · exact hother m hm
    · exact hab t (by simp) m hm

theorem Bears.group (h : Bears f ns a) (t : SchemaId) :
    DepictsAll f t (ns.filter (f.isOf t)) (a.instances t) := by
  induction a generalizing ns with
  | nil =>
    cases h
    exact trivial
  | cons group rest ih =>
    obtain ⟨u, xs⟩ := group
    obtain ⟨us, vs, rfl, -, hother, hus, hvs⟩ := h
    rw [Grove.instances]
    by_cases hut : u = t
    · subst hut
      have hgroup : ([] ++ (us ++ vs)).filter (f.isOf u) = us :=
        hus.filter_between nofun hother
      rw [List.nil_append] at hgroup
      rwa [if_pos rfl, hgroup]
    · rw [List.filter_append]
      have hnone : us.filter (f.isOf t) = [] :=
        List.filter_eq_nil_iff.2 fun m hm => by simp [hus.isOf_eq m hm, Ne.symm hut]
      rw [if_neg hut, hnone, List.nil_append]
      exact ih hvs

mutual

theorem Depicts.unique : (x : Tree) → ∀ {n : NodeId} {y : Tree}, Depicts f n x → Depicts f n y →
    x = y
  | .node v below, n, .node w below', hx, hy => by
    obtain ⟨rfl, hbelow⟩ := hx
    obtain ⟨rfl, hbelow'⟩ := hy
    rw [Bears.unique below hbelow hbelow']

theorem DepictsAll.unique : (xs : List Tree) → ∀ {u : SchemaId} {ns : List NodeId}
    {ys : List Tree}, DepictsAll f u ns xs → DepictsAll f u ns ys → xs = ys
  | [], _, [], [], _, _ => rfl
  | x :: xs, _, n :: ns, y :: ys, ⟨_, hx, hxs⟩, ⟨_, hy, hys⟩ => by
    rw [Depicts.unique x hx hy, DepictsAll.unique xs hxs hys]

theorem Bears.unique : (a : Grove) → ∀ {ns : List NodeId} {b : Grove}, Bears f ns a →
    Bears f ns b → a = b
  | [], _, b, ha, hb => by
    cases ha
    exact (bears_nil.1 hb).symm
  | (t, xs) :: rest, _, [], ha, hb => by
    cases hb
    exact bears_nil.1 ha
  | (t, xs) :: rest, _, (u, ys) :: rest', ⟨ms, ns, heq, hne, hother, hms, hns⟩,
      ⟨ms', ns', heq', hne', hother', hms', hns'⟩ => by
    have hsplit := heq.symm.trans heq'
    obtain ⟨m, us, rfl⟩ := List.exists_cons_of_ne_nil hne
    obtain ⟨m', us', rfl⟩ := List.exists_cons_of_ne_nil hne'
    obtain ⟨rfl, -⟩ := List.cons.inj hsplit
    cases (hms.kind_eq m (by simp)).symm.trans (hms'.kind_eq m (by simp))
    have hin : ∀ {l zs}, DepictsAll f t l zs → ∀ m ∈ l, f.isOf t m = true :=
      fun h m hm => by simp [h.isOf_eq m hm]
    obtain ⟨hus, rfl⟩ := append_inj_of_forall hsplit (hin hms) (by simpa using hother) (hin hms')
      (by simpa using hother')
    rw [← hus] at hms'
    rw [DepictsAll.unique xs hms hms', Bears.unique rest hns hns']

end

end Forest

theorem exists_groups {κ : NodeId → Option SchemaId} {l : List NodeId}
    (hsome : ∀ n ∈ l, (κ n).isSome)
    (hl : ∀ t, Contiguous (fun n => decide (κ n = some t)) l) :
    ∃ gs : List (SchemaId × List NodeId), l = gs.flatMap Prod.snd ∧ (gs.map Prod.fst).Nodup ∧
      ∀ t ms, (t, ms) ∈ gs → ms ≠ [] ∧ ∀ m ∈ ms, κ m = some t := by
  induction l with
  | nil => exact ⟨[], rfl, by simp, by simp⟩
  | cons n l ih =>
    obtain ⟨t, ht⟩ := Option.isSome_iff_exists.1 (hsome n (by simp))
    obtain ⟨gs, rfl, hnd, hgs⟩ := ih (fun m hm => hsome m (by simp [hm])) fun t => (hl t).tail
    have hnew : t ∉ gs.map Prod.fst → ∃ gs' : List (SchemaId × List NodeId),
        n :: gs.flatMap Prod.snd = gs'.flatMap Prod.snd ∧ (gs'.map Prod.fst).Nodup ∧
          ∀ t ms, (t, ms) ∈ gs' → ms ≠ [] ∧ ∀ m ∈ ms, κ m = some t := by
      intro hfresh
      refine ⟨(t, [n]) :: gs, rfl, List.nodup_cons.2 ⟨hfresh, hnd⟩, ?_⟩
      intro t' ms hmem
      rcases List.mem_cons.1 hmem with heq | hmem
      · cases heq
        simpa using ht
      · exact hgs t' ms hmem
    cases gs with
    | nil => exact hnew (by simp)
    | cons group rest =>
      obtain ⟨t', ms⟩ := group
      obtain ⟨hne, hms⟩ := hgs t' ms (by simp)
      obtain ⟨a, ms, rfl⟩ := List.exists_cons_of_ne_nil hne
      have ha := hms a (by simp)
      by_cases htt : t' = t
      · -- the first group gets another member in front
        subst htt
        refine ⟨(t', n :: a :: ms) :: rest, rfl, hnd, ?_⟩
        intro u us hmem
        rcases List.mem_cons.1 hmem with heq | hmem
        · cases heq
          refine ⟨by simp, fun m hm => ?_⟩
          rcases List.mem_cons.1 hm with rfl | hm
          · exact ht
          · exact hms m hm
        · exact hgs u us (by simp [hmem])
      · refine hnew fun hmem => htt ?_
        obtain ⟨⟨u, us⟩, hus, rfl⟩ := List.mem_map.1 hmem
        obtain ⟨hne', hkind⟩ := hgs u us hus
        obtain ⟨b, hb⟩ := List.exists_mem_of_ne_nil _ hne'
        have hbl : b ∈ ((t', a :: ms) :: rest).flatMap Prod.snd :=
          List.mem_flatMap.2 ⟨(u, us), hus, hb⟩
        have hnext := (hl u).next (by simpa using ht) hbl (by simpa using hkind b hb)
        simpa [ha] using hnext

namespace Laid

variable {s : Schema} {f : Forest} {k : Layout} {p : Option NodeId}

theorem layout_of_value (h : Laid s f k) {n : NodeId} {v : Value} (hv : f.valueAt n = some v) :
    k (some n) = [] := by
  obtain ⟨e, he, hvalue⟩ := Option.bind_eq_some_iff.1 hv
  refine h.childless _ ?_
  cases hcontent : e.content with
  | term w => simp [chain?, he, Element.children?, hcontent]
  | inner c => simp [Element.value?, hcontent] at hvalue

theorem node_of_mem (h : Laid s f k) {n : NodeId} {t : SchemaId} (hn : n ∈ k p)
    (ht : f.kind? n = some t) :
    ∃ node, s.nodes[t]? = some node ∧ node.parent = p.bind f.kind? := by
  obtain ⟨e, he, rfl⟩ := get?_of_kind? ht
  exact h.below p n e hn he

/-- What holds of the parents at one depth when it holds of all that stand below them holds of
every parent within the steps of a walk: no path down is longer than there are slots. -/
theorem descend (h : Laid s f k) (hs : s.Built) {M : Nat → Option NodeId → Prop}
    (hstep : ∀ depth p, f.Alive p → (∀ n ∈ k p, M depth (some n)) → M (depth + 1) p)
    (hp : f.Alive p) : M f.steps p := by
  have hpath : ∀ depth p above, f.Alive p → f.Live above → f.slots.size < depth + above.length →
      (∀ a ∈ above, ∀ n ∈ k p, ∃ t t', f.kind? a = some t ∧ f.kind? n = some t' ∧ t < t') →
        M depth p := by
    intro depth
    induction depth with
    | zero =>
      intro p above _ hlive hdepth _
      have hle := hlive.length_le
      omega
    | succ depth ih =>
      intro p above hp hlive hdepth habove
      refine hstep depth p hp fun n hn => ?_
      obtain ⟨e, he, -⟩ := h.exists_of_mem hn
      refine ih (some n) (n :: above) (alive_some.2 ⟨e, he⟩) (hlive.cons ?_ he) ?_ ?_
      · intro hmem
        obtain ⟨t, t', ht, ht', hlt⟩ := habove n hmem n hn
        cases ht.symm.trans ht'
        exact Nat.lt_irrefl _ hlt
      · rw [List.length_cons]
        omega
      · intro a ha m hm
        obtain ⟨t, t', ht, ht', hlt⟩ := h.kind_lt_of_mem hs hm
        rcases List.mem_cons.1 ha with rfl | ha
        · exact ⟨t, t', ht, ht', hlt⟩
        · obtain ⟨u, u', hu, hu', hlt'⟩ := habove a ha n hn
          cases hu'.symm.trans ht
          exact ⟨u, t', hu, ht', Nat.lt_trans hlt' hlt⟩
  exact hpath f.steps p [] hp ⟨List.nodup_nil, by simp⟩ (by simp [steps]) (by simp)

end Laid

namespace Extends

variable {s : Schema} {f g : Forest} {p : Option NodeId}

/-- An element of a later schema node than the place where a forest grows: it does not stand above
that place. -/
def Clear (f : Forest) (p : Option NodeId) (n : NodeId) : Prop :=
  ∃ t, f.kind? n = some t ∧ ∀ i u, p = some i → f.kind? i = some u → u < t

theorem clear_of_mem (hf : Laid s f f.layout) (hs : s.Built) {n : NodeId}
    (hn : n ∈ f.layout p) : Clear f p n := by
  obtain ⟨e, he, -⟩ := hf.exists_of_mem hn
  refine ⟨e.schema, by simp [kind?, he], ?_⟩
  rintro i u rfl hu
  obtain ⟨t, t', ht, ht', hlt⟩ := hf.kind_lt_of_mem hs hn
  cases hu.symm.trans ht
  simp only [kind?, he, Option.map_some, Option.some.injEq] at ht'
  rwa [ht']

theorem Clear.below (hf : Laid s f f.layout) (hs : s.Built) {n m : NodeId} (hn : Clear f p n)
    (hm : m ∈ f.layout (some n)) : Clear f p m := by
  obtain ⟨t, ht, hlt⟩ := hn
  obtain ⟨u, u', hu, hu', hlt'⟩ := hf.kind_lt_of_mem hs hm
  cases ht.symm.trans hu
  exact ⟨u', hu', fun i v hi hv => Nat.lt_trans (hlt i v hi hv) hlt'⟩

theorem layout_eq_of_clear (h : Extends f p g) {n : NodeId} (hn : Clear f p n) :
    g.layout (some n) = f.layout (some n) := by
  obtain ⟨t, ht, hlt⟩ := hn
  refine h.layout _ (alive_iff.2 ?_) ?_
  · rintro i ⟨⟩
    simp [ht]
  · rintro rfl
    exact Nat.lt_irrefl _ (hlt n t rfl ht)

mutual

/-- Elements that do not stand above the place where a forest grows hold what they held. -/
theorem depicts (h : Extends f p g) (hf : Laid s f f.layout) (hs : s.Built) : (x : Tree) →
    ∀ {n : NodeId}, Clear f p n → Depicts f n x → Depicts g n x
  | .node v below, n, hn, hx => by
    obtain ⟨hv, hbelow⟩ := hx
    have halive : (f.kind? n).isSome := by
      obtain ⟨t, ht, -⟩ := hn
      simp [ht]
    refine ⟨(h.value n halive).trans hv, ?_⟩
    rw [layout_eq_of_clear h hn]
    exact bears h hf hs below (fun m hm => hn.below hf hs hm) hbelow

theorem depictsAll (h : Extends f p g) (hf : Laid s f f.layout) (hs : s.Built) {t : SchemaId} :
    (xs : List Tree) → ∀ {ns : List NodeId}, (∀ n ∈ ns, Clear f p n) →
      DepictsAll f t ns xs → DepictsAll g t ns xs
  | [], [], _, _ => trivial
  | x :: xs, n :: ns, hns, ⟨hkind, hx, hxs⟩ =>
    ⟨(h.kind n (by simp [hkind])).trans hkind, depicts h hf hs x (hns n (by simp)) hx,
      depictsAll h hf hs xs (fun m hm => hns m (by simp [hm])) hxs⟩

theorem bears (h : Extends f p g) (hf : Laid s f f.layout) (hs : s.Built) : (a : Grove) →
    ∀ {ns : List NodeId}, (∀ n ∈ ns, Clear f p n) → Bears f ns a → Bears g ns a
  | [], _, _, ha => ha
  | (t, xs) :: rest, _, hns, ⟨ms, ns', heq, hne, hother, hms, hrest⟩ => by
    subst heq
    refine ⟨ms, ns', rfl, hne, fun m hm => ?_,
      depictsAll h hf hs xs (fun n hn => hns n (List.mem_append_left _ hn)) hms,
      bears h hf hs rest (fun n hn => hns n (List.mem_append_right _ hn)) hrest⟩
    obtain ⟨u, hu, -⟩ := hns m (List.mem_append_right _ hm)
    rw [isOf, h.kind m (by simp [hu])]
    exact hother m hm

end

end Extends

end InstanceTree
