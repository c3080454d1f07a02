import InstanceTree.Proofs.Forest.Layout
import Mathlib.Logic.Relation

namespace InstanceTree

def Layout.without (k : Layout) (gone : List NodeId) : Layout := fun p =>
  if p.any (· ∈ gone) then [] else k p

/-- The elements that stand at `roots` or below are `order`: every one ahead of what is below it,
and the children of an element one after the other. -/
inductive Layout.Preorder (k : Layout) : List NodeId → List NodeId → Prop
  | nil : Preorder k [] []
  | cons {n : NodeId} {ns below behind : List NodeId} : Preorder k (k (some n)) below →
      Preorder k ns behind → Preorder k (n :: ns) (n :: below ++ behind)

namespace Layout.Preorder

variable {k k' : Layout} {rs rs' as bs : List NodeId}

theorem append (h : k.Preorder rs as) (h' : k.Preorder rs' bs) :
    k.Preorder (rs ++ rs') (as ++ bs) := by
  induction h with
  | nil => exact h'
  | cons hbelow _ _ ih =>
    rw [List.cons_append, List.append_assoc]
    exact .cons hbelow ih

theorem singleton {n : NodeId} (h : k.Preorder (k (some n)) as) : k.Preorder [n] (n :: as) := by
  have hcons := Preorder.cons h .nil
  rwa [List.append_nil] at hcons

theorem unique (h : k.Preorder rs as) (h' : k.Preorder rs bs) : as = bs := by
  induction h generalizing bs with
  | nil =>
    cases h'
    rfl
  | cons _ _ ihbelow ihbehind =>
    cases h' with
    | cons hbelow hbehind => rw [ihbelow hbelow, ihbehind hbehind]

theorem congr (h : k.Preorder rs as) (hk : ∀ n ∈ as, k' (some n) = k (some n)) :
    k'.Preorder rs as := by
  induction h with
  | nil => exact .nil
  | cons _ _ ihbelow ihbehind =>
    refine .cons ?_ (ihbehind fun m hm => hk m (by simp [hm]))
    rw [hk _ (by simp)]
    exact ihbelow fun m hm => hk m (by simp [hm])

end Layout.Preorder

namespace Forest

/-- The forest with the slots of some elements freed, the one freed last in front. -/
def without (f : Forest) (gone : List NodeId) : Forest where
  slots := f.slots.mapIdx fun i slot => if i ∈ gone then none else slot
  vacant := gone ++ f.vacant
  top := f.top

theorem get?_without (f : Forest) (gone : List NodeId) (n : NodeId) :
    (f.without gone).get? n = if n ∈ gone then none else f.get? n := by
  simp only [get?, without, Array.getElem?_mapIdx]
  cases f.slots[n]? <;> by_cases hn : n ∈ gone <;> simp [hn]

theorem without_nil (f : Forest) : f.without [] = f :=
  ext_get? (by simp [without]) (fun n => by simp [get?_without]) rfl rfl

variable {f : Forest} {gone : List NodeId} {n : NodeId} {e : Element}

theorem get?_without_eq_some :
    (f.without gone).get? n = some e ↔ n ∉ gone ∧ f.get? n = some e := by
  rw [get?_without]
  split <;> simp_all

theorem without_cons :
    { f.without gone with
      slots := (f.without gone).slots.setIfInBounds n none
      vacant := n :: (f.without gone).vacant } = f.without (n :: gone) := by
  refine ext_get? (by simp [without]) ?_ rfl rfl
  intro i
  rw [get?_without]
  by_cases hi : i = n
  · subst hi
    simp [get?, without, Array.getElem?_setIfInBounds]
    split <;> simp_all
  · have hslot : (f.without (n :: gone)).get? i = (f.without gone).get? i := by
      simp [get?_without, hi]
    rw [← get?_without, hslot, get?, get?, Array.getElem?_setIfInBounds_ne (Ne.symm hi)]

/-- Elements that can be freed together with those in `roots`: all that is below them, once. -/
structure Below (k : Layout) (roots gone : List NodeId) : Prop where
  within : ∀ n ∈ roots, n ∈ gone
  closed : ∀ n ∈ gone, ∀ c ∈ k (some n), c ∈ gone
  rooted : ∀ n ∈ gone, n ∈ roots ∨ ∃ q ∈ gone, n ∈ k (some q)

theorem Below.append {k : Layout} {rs rs' as bs : List NodeId} (h : Below k rs as)
    (h' : Below k rs' bs) : Below k (rs ++ rs') (bs ++ as) := by
  refine ⟨?_, ?_, ?_⟩
  · intro n hn
    rcases List.mem_append.1 hn with hn | hn
    · exact List.mem_append_right _ (h.within n hn)
    · exact List.mem_append_left _ (h'.within n hn)
  · intro n hn c hc
    rcases List.mem_append.1 hn with hn | hn
    · exact List.mem_append_left _ (h'.closed n hn c hc)
    · exact List.mem_append_right _ (h.closed n hn c hc)
  · intro n hn
    rcases List.mem_append.1 hn with hn | hn
    · rcases h'.rooted n hn with hr | ⟨q, hq, hc⟩
      · exact .inl (List.mem_append_right _ hr)
      · exact .inr ⟨q, List.mem_append_left _ hq, hc⟩
    · rcases h.rooted n hn with hr | ⟨q, hq, hc⟩
      · exact .inl (List.mem_append_left _ hr)
      · exact .inr ⟨q, List.mem_append_right _ hq, hc⟩

theorem Below.cons {k : Layout} {n : NodeId} {gone : List NodeId} (h : Below k (k (some n)) gone) :
    Below k [n] (gone ++ [n]) := by
  refine ⟨by simp, ?_, ?_⟩
  · intro m hm c hc
    rcases List.mem_append.1 hm with hm | hm
    · exact List.mem_append_left _ (h.closed m hm c hc)
    · cases List.mem_singleton.1 hm
      exact List.mem_append_left _ (h.within c hc)
  · intro m hm
    rcases List.mem_append.1 hm with hm | hm
    · rcases h.rooted m hm with hr | ⟨q, hq, hc⟩
      · exact .inr ⟨n, by simp, hr⟩
      · exact .inr ⟨q, List.mem_append_left _ hq, hc⟩
    · exact .inl hm

theorem Below.of_preorder {k : Layout} {rs order : List NodeId} (h : k.Preorder rs order) :
    Below k rs order.reverse := by
  induction h with
  | nil => constructor <;> simp
  | cons _ _ ihbelow ihbehind =>
    have hboth := ihbelow.cons.append ihbehind
    simpa using hboth

theorem Below.of_preorder_reverse {k : Layout} {rs gone : List NodeId}
    (h : k.Preorder rs gone.reverse) : Below k rs gone := by
  have hbelow := of_preorder h
  rwa [List.reverse_reverse] at hbelow

def Live (f : Forest) (gone : List NodeId) : Prop :=
  gone.Nodup ∧ ∀ n ∈ gone, ∃ e, f.get? n = some e

theorem Live.cons (h : f.Live gone) (hn : n ∉ gone) (he : f.get? n = some e) :
    f.Live (n :: gone) := by
  refine ⟨List.nodup_cons.2 ⟨hn, h.1⟩, ?_⟩
  intro m hm
  rcases List.mem_cons.1 hm with rfl | hm
  · exact ⟨e, he⟩
  · exact h.2 m hm

end Forest

/-- Listed in pre-order are the roots and what can be reached from them by steps to children. -/
theorem Layout.Preorder.mem_iff {k : Layout} {rs order : List NodeId} (h : k.Preorder rs order)
    {i : NodeId} : i ∈ order ↔ ∃ r ∈ rs, Relation.ReflTransGen (fun a b => b ∈ k (some a)) r i := by
  constructor
  · intro hi
    induction h with
    | nil => cases hi
    | cons _ _ ihbelow ihbehind =>
      rw [List.cons_append, List.mem_cons, List.mem_append] at hi
      rcases hi with rfl | hi | hi
      · exact ⟨i, List.mem_cons_self, .refl⟩
      · obtain ⟨c, hc, hstep⟩ := ihbelow hi
        exact ⟨_, List.mem_cons_self, .head hc hstep⟩
      · obtain ⟨r, hr, hstep⟩ := ihbehind hi
        exact ⟨r, List.mem_cons_of_mem _ hr, hstep⟩
  · intro hi
    have hbelow := Forest.Below.of_preorder h
    obtain ⟨r, hr, hstep⟩ := hi
    rw [← List.mem_reverse]
    induction hstep with
    | refl => exact hbelow.within r hr
    | tail _ hc ih => exact hbelow.closed _ ih _ hc

namespace Laid

open Forest

variable {s : Schema} {f : Forest} {k : Layout} {n : NodeId} {e : Element}

section Steps

variable {gone : List NodeId} {g : Forest} {fuel : Nat}

/-- An element is released by freeing its slot, and then all that is below it. -/
theorem releaseBelow_eq_ok (h : Laid s f k) :
    releaseBelow (fuel + 1) (f.without gone) n = .ok g ↔ n ∉ gone ∧
      (∃ e, f.get? n = some e ∧ Drops e.anchor) ∧
        releaseChain fuel (f.without (n :: gone)) (k (some n)).head? = .ok g := by
  have hleaf : ∀ e v, f.get? n = some e → e.content = .term v → (k (some n)).head? = none := by
    intro e v he hcontent
    rw [h.childless (some n) (by simp [chain?, he, Element.children?, hcontent]), List.head?_nil]
  have hinner : ∀ e c, f.get? n = some e → e.content = .inner c →
      c.first = (k (some n)).head? :=
    fun e c he hcontent => h.first (some n) c (by simp [chain?, he, Element.children?, hcontent])
  simp only [releaseBelow, bind_eq_ok, element_eq_some, get?_without_eq_some, without_cons]
  constructor
  · intro hg
    obtain ⟨e, ⟨hn, he⟩, _, hdrop, hg⟩ := hg
    refine ⟨hn, ⟨e, he, hdrop⟩, ?_⟩
    cases hcontent : e.content with
    | term v =>
      rw [hcontent] at hg
      rw [hleaf e v he hcontent, releaseChain]
      exact hg
    | inner c =>
      rw [hcontent] at hg
      rw [← hinner e c he hcontent]
      exact hg
  · intro hg
    obtain ⟨hn, ⟨e, he, hdrop⟩, hg⟩ := hg
    refine ⟨e, ⟨hn, he⟩, (), hdrop, ?_⟩
    cases hcontent : e.content with
    | term v =>
      rw [hleaf e v he hcontent, releaseChain] at hg
      exact hg
    | inner c =>
      rw [← hinner e c he hcontent] at hg
      exact hg

theorem releaseChain_eq_ok (h : Laid s f k) {p : Option NodeId} {xs ys : List NodeId}
    (hk : k p = xs ++ n :: ys) :
    releaseChain (fuel + 1) (f.without gone) (n :: ys).head? = .ok g ↔ n ∉ gone ∧
      ∃ g₁, releaseBelow fuel (f.without gone) n = .ok g₁ ∧
        releaseChain fuel g₁ ys.head? = .ok g := by
  obtain ⟨e, he, -, -, -, hnext⟩ := h.links p xs n ys hk
  simp only [List.head?_cons, releaseChain, bind_eq_ok, element_eq_some, get?_without_eq_some]
  constructor
  · intro hg
    obtain ⟨e', ⟨hn, he'⟩, hg⟩ := hg
    cases he.symm.trans he'
    rw [hnext] at hg
    exact ⟨hn, hg⟩
  · intro hg
    refine ⟨e, ⟨hg.1, he⟩, ?_⟩
    rw [hnext]
    exact hg.2

end Steps

theorem release_below (h : Laid s f k) (fuel : Nat) :
    (∀ (gone : List NodeId) (n : NodeId) (g : Forest), f.Live gone →
      releaseBelow fuel (f.without gone) n = .ok g →
        ∃ more, g = f.without (more ++ gone) ∧ f.Live (more ++ gone) ∧
          k.Preorder [n] more.reverse) ∧
    ∀ (gone : List NodeId) (p : Option NodeId) (xs ys : List NodeId) (g : Forest), f.Live gone →
      k p = xs ++ ys → releaseChain fuel (f.without gone) ys.head? = .ok g →
        ∃ more, g = f.without (more ++ gone) ∧ f.Live (more ++ gone) ∧
          k.Preorder ys more.reverse := by
  induction fuel with
  | zero =>
    constructor
    · intro gone n g _ hg
      cases hg
    · intro gone p xs ys g hlive hk hg
      cases ys with
      | nil =>
        cases hg
        exact ⟨[], rfl, hlive, .nil⟩
      | cons n ys => cases hg
  | succ fuel ih =>
    constructor
    · intro gone n g hlive hg
      obtain ⟨hn, ⟨e, he, -⟩, hg⟩ := h.releaseBelow_eq_ok.1 hg
      obtain ⟨more, rfl, hmore, hbelow⟩ :=
        ih.2 (n :: gone) (some n) [] _ g (hlive.cons hn he) rfl hg
      exact ⟨more ++ [n], by simp, by simpa using hmore, by simpa using hbelow.singleton⟩
    · intro gone p xs ys g hlive hk hg
      cases ys with
      | nil =>
        cases hg
        exact ⟨[], rfl, hlive, .nil⟩
      | cons n ys =>
        obtain ⟨-, g₁, hg₁, hg⟩ := (h.releaseChain_eq_ok hk).1 hg
        obtain ⟨as, rfl, has, hbelow⟩ := ih.1 gone n g₁ hlive hg₁
        obtain ⟨bs, rfl, hbs, hbelow'⟩ := ih.2 (as ++ gone) p (xs ++ [n]) ys g has
          (by simpa using hk) hg
        exact ⟨bs ++ as, by simp, by simpa using hbs, by simpa using hbelow.append hbelow'⟩

theorem release_eq (h : Laid s f k) {g : Forest} (hg : f.release n = .ok g) :
    ∃ gone, g = f.without gone ∧ f.Live gone ∧ k.Preorder [n] gone.reverse := by
  obtain ⟨gone, rfl, hlive, horder⟩ := (h.release_below _).1 [] n g ⟨List.nodup_nil, by simp⟩
    (by rw [without_nil]; exact hg)
  exact ⟨gone, by simp, by simpa using hlive, horder⟩

section Without

variable {gone : List NodeId} {m : NodeId} {p : Option NodeId}

theorem not_mem_gone (h : Laid s f k) (hbelow : Below k [n] gone) (hloose : ∀ q, n ∉ k q)
    (hp : p.any (· ∈ gone) = false) (hm : m ∈ k p) : m ∉ gone := by
  intro hmem
  rcases hbelow.rooted m hmem with hroot | ⟨q, hq, hc⟩
  · cases List.mem_singleton.1 hroot
    exact hloose p hm
  · cases h.unique_parent hm hc
    simp [hq] at hp

theorem without_eq (hp : p.any (· ∈ gone) = false) : k.without gone p = k p := by
  rw [Layout.without, if_neg (by rw [hp]; decide)]

theorem stays_of_mem (hm : m ∈ k.without gone p) : p.any (· ∈ gone) = false := by
  unfold Layout.without at hm
  split at hm
  · cases hm
  · next hp => simpa using hp

theorem group_without (h : Laid s f k) (hbelow : Below k [n] gone) (hloose : ∀ q, n ∉ k q)
    (hp : p.any (· ∈ gone) = false) (t : SchemaId) :
    (f.without gone).group (k.without gone) p t = f.group k p t := by
  rw [group, without_eq hp]
  apply List.filter_congr
  intro m hm
  simp [isOf, kind?, get?_without, h.not_mem_gone hbelow hloose hp hm]

theorem nodup_without (h : Laid s f k) (p : Option NodeId) : (k.without gone p).Nodup := by
  unfold Layout.without
  split
  · exact List.nodup_nil
  · exact h.nodup p

theorem chain?_without_eq_some {c : Children} (hc : (f.without gone).chain? p = some c) :
    p.any (· ∈ gone) = false ∧ f.chain? p = some c := by
  cases p with
  | none => exact ⟨rfl, hc⟩
  | some i =>
    obtain ⟨e, he, hc⟩ := Option.bind_eq_some_iff.1 hc
    obtain ⟨hi, he⟩ := get?_without_eq_some.1 he
    exact ⟨by simp [hi], by simp [chain?, he, hc]⟩

theorem chain?_without (hp : p.any (· ∈ gone) = false) :
    (f.without gone).chain? p = f.chain? p := by
  cases p with
  | none => rfl
  | some i => rw [chain?, get?_without, if_neg (by simpa using hp), chain?]

theorem parent_stays (h : Laid s f k) (hbelow : Below k [n] gone) (hm : m ∉ gone)
    (he : f.get? m = some e) (hlinked : e.linked = true) : e.parent.any (· ∈ gone) = false := by
  have hmem := h.placed m e he hlinked
  cases hparent : e.parent with
  | none => rfl
  | some q =>
    rw [hparent] at hmem
    simp only [Option.any_some, decide_eq_false_iff_not]
    exact fun hq => hm (hbelow.closed q hq m hmem)

theorem slots_without_eq_none {i : NodeId} (hlive : f.Live gone) :
    (f.without gone).slots[i]? = some none ↔ i ∈ gone ∨ f.slots[i]? = some none := by
  by_cases hi : i ∈ gone
  · obtain ⟨e, he⟩ := hlive.2 i hi
    simp [without, slot_of_get? he, hi]
  · simp [without, Array.getElem?_mapIdx, hi]

end Without

/-- What is left after a release is laid out as before, if the released element stood nowhere. -/
theorem release (h : Laid s f k) {gone : List NodeId} (hlive : f.Live gone)
    (hbelow : Below k [n] gone) (hloose : ∀ q, n ∉ k q) :
    Laid s (f.without gone) (k.without gone) := by
  constructor
  case slots_le => simpa [without] using h.slots_le
  case vacant_nodup =>
    refine List.nodup_append.2 ⟨hlive.1, h.vacant_nodup, ?_⟩
    intro m hm _ hv heq
    subst heq
    obtain ⟨e, he⟩ := hlive.2 m hm
    cases (slot_of_get? he).symm.trans (h.vacant_empty m hv)
  case vacant_empty =>
    intro m hm
    exact (slots_without_eq_none hlive).2 ((List.mem_append.1 hm).imp_right (h.vacant_empty m))
  case empty_vacant =>
    intro m hm
    exact List.mem_append.2 (((slots_without_eq_none hlive).1 hm).imp_right (h.empty_vacant m))
  case typed => exact fun m e he => h.typed m e (get?_without_eq_some.1 he).2
  case nodup => exact h.nodup_without
  case links =>
    intro p xs m ys hp
    have hpg := stays_of_mem (show m ∈ k.without gone p by simp [hp])
    rw [without_eq hpg] at hp
    obtain ⟨e, he, hlinks⟩ := h.links p xs m ys hp
    have hm := h.not_mem_gone hbelow hloose hpg (show m ∈ k p by simp [hp])
    exact ⟨e, get?_without_eq_some.2 ⟨hm, he⟩, hlinks⟩
  case placed =>
    intro m e he hlinked
    obtain ⟨hm, he⟩ := get?_without_eq_some.1 he
    rw [without_eq (h.parent_stays hbelow hm he hlinked)]
    exact h.placed m e he hlinked
  case loose => exact fun m e he => h.loose m e (get?_without_eq_some.1 he).2
  case childless =>
    intro p hp
    unfold Layout.without
    split
    · rfl
    · next hpg =>
      rw [chain?_without (by simpa using hpg)] at hp
      exact h.childless p hp
  case first =>
    intro p c hc
    obtain ⟨hp, hc⟩ := chain?_without_eq_some hc
    rw [without_eq hp]
    exact h.first p c hc
  case last =>
    intro p c hc
    obtain ⟨hp, hc⟩ := chain?_without_eq_some hc
    rw [without_eq hp]
    exact h.last p c hc
  case runs =>
    intro p c t hc
    obtain ⟨hp, hc⟩ := chain?_without_eq_some hc
    rw [h.group_without hbelow hloose hp]
    exact h.runs p c t hc
  case contiguous =>
    intro p t
    unfold Layout.without
    split
    · exact ⟨[], [], [], rfl, by simp, by simp, by simp⟩
    · next hp =>
      apply (h.contiguous p t).congr
      intro m hm
      simp [isOf, kind?, get?_without,
        h.not_mem_gone hbelow hloose (by simpa using hp) hm]
  case below =>
    intro p m e hm he
    have hp := stays_of_mem hm
    rw [without_eq hp] at hm
    obtain ⟨node, hnode, hparent⟩ := h.below p m e hm (get?_without_eq_some.1 he).2
    refine ⟨node, hnode, hparent.trans ?_⟩
    cases p with
    | none => rfl
    | some i =>
      have hi : i ∉ gone := by simpa using hp
      simp [kind?, get?_without, hi]

end Laid

end InstanceTree
