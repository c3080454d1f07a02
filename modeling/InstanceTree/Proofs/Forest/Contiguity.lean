import Mathlib.Data.List.Nodup

namespace InstanceTree

variable {α : Type} {q : α → Bool} {l xs ys : List α} {n : α}

/-- The items with a property stand together: `g` between others. -/
structure Together (q : α → Bool) (l as g bs : List α) : Prop where
  eq : l = as ++ (g ++ bs)
  before : ∀ a ∈ as, q a = false
  within : ∀ a ∈ g, q a = true
  after : ∀ a ∈ bs, q a = false

/-- The items with a property follow each other without a gap. -/
def Contiguous (q : α → Bool) (l : List α) : Prop :=
  ∃ as g bs, Together q l as g bs

theorem Together.filter_eq {as g bs : List α} (h : Together q l as g bs) : l.filter q = g := by
  have has : as.filter q = [] := List.filter_eq_nil_iff.2 fun a ha => by simp [h.before a ha]
  have hbs : bs.filter q = [] := List.filter_eq_nil_iff.2 fun a ha => by simp [h.after a ha]
  rw [h.eq, List.filter_append, List.filter_append, has, hbs, List.filter_eq_self.2 h.within]
  simp

theorem Together.filter_left {as g bs gx : List α} (h : Together q l as g bs)
    (hx : ∀ a ∈ gx, a ∈ g) : (as ++ gx).filter q = gx := by
  have has : as.filter q = [] := List.filter_eq_nil_iff.2 fun a ha => by simp [h.before a ha]
  rw [List.filter_append, has, List.nil_append]
  exact List.filter_eq_self.2 fun a ha => h.within a (hx a ha)

theorem Together.filter_right {as g bs gy : List α} (h : Together q l as g bs)
    (hy : ∀ a ∈ gy, a ∈ g) : (gy ++ bs).filter q = gy := by
  have hbs : bs.filter q = [] := List.filter_eq_nil_iff.2 fun a ha => by simp [h.after a ha]
  rw [List.filter_append, hbs, List.append_nil]
  exact List.filter_eq_self.2 fun a ha => h.within a (hy a ha)

theorem Contiguous.together (h : Contiguous q l) :
    ∃ as bs, Together q l as (l.filter q) bs := by
  obtain ⟨as, g, bs, hg⟩ := h
  exact ⟨as, bs, hg.filter_eq ▸ hg⟩

theorem Together.cases {as g bs : List α} (h : Together q (xs ++ ys) as g bs) :
    (∃ c, as = xs ++ c ∧ ys = c ++ (g ++ bs)) ∨ (∃ c d, g = c ++ d ∧ xs = as ++ c ∧ ys = d ++ bs) ∨
      ∃ d, bs = d ++ ys ∧ xs = as ++ (g ++ d) := by
  rcases List.append_eq_append_iff.1 h.eq with ⟨c, hc, hc'⟩ | ⟨c, hc, hc'⟩
  · exact .inl ⟨c, hc, hc'⟩
  · rcases List.append_eq_append_iff.1 hc' with ⟨d, hd, hd'⟩ | ⟨d, hd, hd'⟩
    · exact .inr (.inr ⟨d, hd', by rw [hc, hd]⟩)
    · exact .inr (.inl ⟨c, d, hd, hc, hd'⟩)

theorem Contiguous.filter (h : Contiguous q l) (p : α → Bool) : Contiguous q (l.filter p) := by
  obtain ⟨as, g, bs, hg⟩ := h
  refine ⟨as.filter p, g.filter p, bs.filter p, ?_, ?_, ?_, ?_⟩
  · rw [hg.eq, List.filter_append, List.filter_append]
  · exact fun a ha => hg.before a (List.mem_of_mem_filter ha)
  · exact fun a ha => hg.within a (List.mem_of_mem_filter ha)
  · exact fun a ha => hg.after a (List.mem_of_mem_filter ha)

theorem Contiguous.congr {q' : α → Bool} (h : Contiguous q l) (hq : ∀ a ∈ l, q' a = q a) :
    Contiguous q' l := by
  obtain ⟨as, g, bs, rfl, has, hg, hbs⟩ := h
  refine ⟨as, g, bs, rfl, ?_, ?_, ?_⟩
  · exact fun a ha => (hq a (by simp [ha])).trans (has a ha)
  · exact fun a ha => (hq a (by simp [ha])).trans (hg a ha)
  · exact fun a ha => (hq a (by simp [ha])).trans (hbs a ha)

theorem Contiguous.tail (h : Contiguous q (n :: l)) : Contiguous q l := by
  obtain ⟨as, g, bs, hg⟩ := h
  cases as with
  | cons a as =>
    obtain ⟨rfl, hl⟩ := List.cons.inj hg.eq
    exact ⟨as, g, bs, hl, fun b hb => hg.before b (by simp [hb]), hg.within, hg.after⟩
  | nil =>
    cases g with
    | cons a g =>
      obtain ⟨rfl, hl⟩ := List.cons.inj hg.eq
      exact ⟨[], g, bs, hl, by simp, fun b hb => hg.within b (by simp [hb]), hg.after⟩
    | nil =>
      have hnone : ∀ a ∈ n :: l, q a = false := by
        rw [hg.eq]
        simpa using hg.after
      exact ⟨l, [], [], by simp, fun a ha => hnone a (by simp [ha]), by simp, by simp⟩

theorem Contiguous.of_append (h : Contiguous q (xs ++ ys)) : Contiguous q ys := by
  induction xs with
  | nil => exact h
  | cons a xs ih => exact ih h.tail

theorem Contiguous.next (h : Contiguous q (n :: l)) (hn : q n = true) {a : α} (ha : a ∈ l)
    (hqa : q a = true) : l.head?.any q = true := by
  obtain ⟨as, g, bs, hg⟩ := h
  cases as with
  | cons b as =>
    obtain ⟨rfl, -⟩ := List.cons.inj hg.eq
    rw [hg.before n (by simp)] at hn
    cases hn
  | nil =>
    cases g with
    | nil =>
      rw [hg.after n (by rw [← show n :: l = bs from hg.eq]; simp)] at hn
      cases hn
    | cons b g =>
      obtain ⟨rfl, rfl⟩ := List.cons.inj hg.eq
      cases g with
      | nil =>
        rw [hg.after a (by simpa using ha)] at hqa
        cases hqa
      | cons c g => exact hg.within c (by simp)

/-- A place between `xs` and `ys` that an item with the property may take: beside others, or
anywhere if there are none. -/
def Beside (q : α → Bool) (xs ys : List α) : Prop :=
  xs.getLast?.any q = true ∨ ys.head?.any q = true ∨ ∀ a ∈ xs ++ ys, q a = false

/-- A place between `xs` and `ys` is not within the items with a property. -/
def Outside (q : α → Bool) (xs ys : List α) : Prop :=
  xs.getLast?.any q = false ∨ ys.head?.any q = false

theorem any_getLast?_eq_false (h : ∀ a ∈ xs, q a = false) : xs.getLast?.any q = false := by
  cases hl : xs.getLast? with
  | none => rfl
  | some a => exact h a (List.mem_of_getLast? hl)

theorem any_head?_eq_false (h : ∀ a ∈ ys, q a = false) : ys.head?.any q = false := by
  cases ys with
  | nil => rfl
  | cons a ys => exact h a (by simp)

theorem contiguous_singleton (h : ∀ a ∈ xs ++ ys, q a = false) (hn : q n = true) :
    Contiguous q (xs ++ n :: ys) := by
  refine ⟨xs, [n], ys, rfl, ?_, by simpa using hn, ?_⟩
  · exact fun a ha => h a (List.mem_append_left _ ha)
  · exact fun a ha => h a (List.mem_append_right _ ha)

theorem Contiguous.insert_beside (h : Contiguous q (xs ++ ys)) (hn : q n = true)
    (hb : Beside q xs ys) : Contiguous q (xs ++ n :: ys) := by
  obtain ⟨as, g, bs, hg⟩ := h
  rcases hg.cases with ⟨c, rfl, rfl⟩ | ⟨c, d, rfl, rfl, rfl⟩ | ⟨d, rfl, rfl⟩
  · cases c with
    | nil =>
      refine ⟨xs, n :: g, bs, rfl, by simpa using hg.before, ?_, hg.after⟩
      simpa [hn] using hg.within
    | cons a c =>
      rcases hb with hb | hb | hb
      · rw [any_getLast?_eq_false fun a ha => hg.before a (by simp [ha])] at hb
        cases hb
      · have ha : q a = true := by simpa using hb
        rw [hg.before a (by simp)] at ha
        cases ha
      · exact contiguous_singleton hb hn
  · refine ⟨as, c ++ n :: d, bs, by simp, hg.before, ?_, hg.after⟩
    intro a ha
    rcases List.mem_append.1 ha with ha | ha
    · exact hg.within a (by simp [ha])
    · rcases List.mem_cons.1 ha with rfl | ha
      · exact hn
      · exact hg.within a (by simp [ha])
  · rcases List.eq_nil_or_concat d with rfl | ⟨d, a, rfl⟩
    · refine ⟨as, g ++ [n], ys, by simp, hg.before, ?_, by simpa using hg.after⟩
      intro a ha
      rcases List.mem_append.1 ha with ha | ha
      · exact hg.within a ha
      · cases List.mem_singleton.1 ha
        exact hn
    · rcases hb with hb | hb | hb
      · have ha : q a = true := by simpa [← List.append_assoc] using hb
        rw [hg.after a (by simp)] at ha
        cases ha
      · rw [any_head?_eq_false fun a ha => hg.after a (by simp [ha])] at hb
        cases hb
      · exact contiguous_singleton hb hn

theorem Contiguous.insert_outside (h : Contiguous q (xs ++ ys)) (hn : q n = false)
    (hb : Outside q xs ys) : Contiguous q (xs ++ n :: ys) := by
  obtain ⟨as, g, bs, hg⟩ := h
  rcases hg.cases with ⟨c, rfl, rfl⟩ | ⟨c, d, rfl, rfl, rfl⟩ | ⟨d, rfl, rfl⟩
  · refine ⟨xs ++ n :: c, g, bs, by simp, ?_, hg.within, hg.after⟩
    intro a ha
    rcases List.mem_append.1 ha with ha | ha
    · exact hg.before a (by simp [ha])
    · rcases List.mem_cons.1 ha with rfl | ha
      · exact hn
      · exact hg.before a (by simp [ha])
  · rcases List.eq_nil_or_concat c with rfl | ⟨c, a, rfl⟩
    · refine ⟨as ++ [n], d, bs, by simp, ?_, hg.within, hg.after⟩
      intro a ha
      rcases List.mem_append.1 ha with ha | ha
      · exact hg.before a ha
      · cases List.mem_singleton.1 ha
        exact hn
    · cases d with
      | nil =>
        refine ⟨as, c.concat a, n :: bs, by simp, hg.before, by simpa using hg.within, ?_⟩
        simpa [hn] using hg.after
      | cons a' d =>
        have ha : q a = true := hg.within a (by simp)
        have ha' : q a' = true := hg.within a' (by simp)
        simp [Outside, ha, ha', ← List.append_assoc] at hb
  · refine ⟨as, g, d ++ n :: ys, by simp, hg.before, hg.within, ?_⟩
    intro a ha
    rcases List.mem_append.1 ha with ha | ha
    · exact hg.after a (by simp [ha])
    · rcases List.mem_cons.1 ha with rfl | ha
      · exact hn
      · exact hg.after a (by simp [ha])

theorem Contiguous.before (h : Contiguous q (xs ++ ys)) (hb : Beside q xs ys)
    (hlast : xs.getLast?.any q = false) : ∀ a ∈ xs, q a = false := by
  obtain ⟨as, g, bs, hg⟩ := h
  rcases hg.cases with ⟨c, rfl, rfl⟩ | ⟨c, d, rfl, rfl, rfl⟩ | ⟨d, rfl, rfl⟩
  · exact fun a ha => hg.before a (by simp [ha])
  · rcases List.eq_nil_or_concat c with rfl | ⟨c, a, rfl⟩
    · simpa using hg.before
    · have ha : q a = true := hg.within a (by simp)
      simp [← List.append_assoc, ha] at hlast
  · rcases hb with hb | hb | hb
    · rw [hlast] at hb
      cases hb
    · rw [any_head?_eq_false fun a ha => hg.after a (by simp [ha])] at hb
      cases hb
    · exact fun a ha => hb a (List.mem_append_left _ ha)

theorem Contiguous.reverse (h : Contiguous q l) : Contiguous q l.reverse := by
  obtain ⟨as, g, bs, hg⟩ := h
  refine ⟨bs.reverse, g.reverse, as.reverse, by simp [hg.eq], ?_, ?_, ?_⟩
  · simpa using hg.after
  · simpa using hg.within
  · simpa using hg.before

theorem Contiguous.after (h : Contiguous q (xs ++ ys)) (hb : Beside q xs ys)
    (hhead : ys.head?.any q = false) : ∀ a ∈ ys, q a = false := by
  have hrev := h.reverse
  rw [List.reverse_append] at hrev
  have hb' : Beside q ys.reverse xs.reverse := by
    rcases hb with hb | hb | hb
    · exact .inr (.inl (by simpa using hb))
    · exact .inl (by simpa using hb)
    · exact .inr (.inr fun a ha => hb a (by simpa [or_comm] using ha))
  simpa using hrev.before hb' (by simpa using hhead)

theorem Contiguous.around (h : Contiguous q (xs ++ n :: ys)) (hn : q n = true) :
    ∃ as bs, xs = as ++ xs.filter q ∧ ys = ys.filter q ++ bs := by
  obtain ⟨as, g, bs, hg⟩ := h
  have hfilter : ∀ l : List α, (∀ a ∈ l, q a = false) → l.filter q = [] := fun l hl =>
    List.filter_eq_nil_iff.2 fun a ha => by simp [hl a ha]
  have hself : ∀ l : List α, (∀ a ∈ l, q a = true) → l.filter q = l := fun l hl =>
    List.filter_eq_self.2 hl
  suffices hs : ∃ as c d bs, xs = as ++ c ∧ ys = d ++ bs ∧ as.filter q = [] ∧ c.filter q = c ∧
      d.filter q = d ∧ bs.filter q = [] by
    obtain ⟨as, c, d, bs, rfl, rfl, has, hc, hd, hbs⟩ := hs
    exact ⟨as, bs, by simp [has, hc], by simp [hd, hbs]⟩
  have has := hfilter as hg.before
  have hbs := hfilter bs hg.after
  rcases hg.cases with ⟨c, hc, hc'⟩ | ⟨c, d, rfl, rfl, hd⟩ | ⟨d, hd, -⟩
  · cases c with
    | nil =>
      cases g with
      | nil =>
        rw [hg.after n (by simp [show bs = n :: ys from hc'.symm])] at hn
        cases hn
      | cons a d =>
        obtain ⟨rfl, rfl⟩ := List.cons.inj hc'
        refine ⟨as, [], d, bs, by simpa using hc.symm, rfl, has, rfl, ?_, hbs⟩
        exact hself d fun a ha => hg.within a (by simp [ha])
    | cons a c =>
      obtain ⟨rfl, -⟩ := List.cons.inj hc'
      rw [hg.before n (by simp [hc])] at hn
      cases hn
  · cases d with
    | nil =>
      rw [hg.after n (by simp [show bs = n :: ys from hd.symm])] at hn
      cases hn
    | cons a d =>
      obtain ⟨rfl, rfl⟩ := List.cons.inj hd
      refine ⟨as, c, d, bs, rfl, rfl, has, ?_, ?_, hbs⟩
      · exact hself c fun a ha => hg.within a (by simp [ha])
      · exact hself d fun a ha => hg.within a (by simp [ha])
  · rw [hg.after n (by simp [hd])] at hn
    cases hn

theorem Contiguous.beside (h : Contiguous q (xs ++ n :: ys)) (hn : q n = true) :
    Beside q xs ys := by
  obtain ⟨as, bs, hx, hy⟩ := h.around hn
  rcases List.eq_nil_or_concat (xs.filter q) with hxs | ⟨gx, a, hxs⟩
  · cases hys : ys.filter q with
    | nil =>
      refine .inr (.inr fun a ha => ?_)
      have hnone : (xs ++ ys).filter q = [] := by rw [List.filter_append, hxs, hys]; rfl
      simpa using List.filter_eq_nil_iff.1 hnone a ha
    | cons b gy =>
      have hmem : b ∈ ys.filter q := by simp [hys]
      have hb : q b = true := (List.mem_filter.1 hmem).2
      rw [hy, hys]
      exact .inr (.inl hb)
  · have hmem : a ∈ xs.filter q := by simp [hxs]
    have ha : q a = true := (List.mem_filter.1 hmem).2
    rw [hx, hxs]
    refine .inl ?_
    simp [← List.append_assoc, ha]

theorem Contiguous.outside (h : Contiguous q (xs ++ n :: ys)) (hn : q n = false) :
    Outside q xs ys := by
  rcases List.eq_nil_or_concat xs with rfl | ⟨xs, a, rfl⟩
  · exact .inl rfl
  · cases ys with
    | nil => exact .inr rfl
    | cons b ys =>
      cases ha : q a with
      | false => exact .inl (by simpa using ha)
      | true =>
        cases hb : q b with
        | false => exact .inr hb
        | true =>
          rw [List.concat_eq_append, List.append_assoc] at h
          have hnext := h.of_append.next ha (by simp : b ∈ n :: b :: ys) hb
          cases hn.symm.trans hnext

/-- Which places keep the items with a property together: those beside the others for an item
that has it, and those outside for an item that has not. -/
theorem Contiguous.insert_iff (h : Contiguous q (xs ++ ys)) :
    Contiguous q (xs ++ n :: ys) ↔ if q n then Beside q xs ys else Outside q xs ys := by
  split
  · next hn => exact ⟨fun hg => hg.beside hn, h.insert_beside hn⟩
  · next hn =>
    have hn : q n = false := by simpa using hn
    exact ⟨fun hg => hg.outside hn, h.insert_outside hn⟩

/-- What has a property leads a list if it comes ahead of all that has not. An item that has not
may come where nothing that has it follows. -/
theorem pairwise_insert_iff {P : α → Prop} (h : (xs ++ ys).Pairwise fun a b => P b → P a)
    (hn : ¬P n) : (xs ++ n :: ys).Pairwise (fun a b => P b → P a) ↔
      ∀ a, ys.head? = some a → ¬P a := by
  obtain ⟨hxs, hys, hcross⟩ := List.pairwise_append.1 h
  constructor
  · intro hp a ha hPa
    have hbehind := (List.pairwise_cons.1 (List.pairwise_append.1 hp).2.1).1
    exact hn (hbehind a (List.mem_of_head? ha) hPa)
  · intro hhead
    have hnone : ∀ a ∈ ys, ¬P a := by
      cases ys with
      | nil => simp
      | cons b ys =>
        have hb := hhead b rfl
        intro a ha hPa
        rcases List.mem_cons.1 ha with rfl | ha
        · exact hb hPa
        · exact hb ((List.pairwise_cons.1 hys).1 a ha hPa)
    refine List.pairwise_append.2 ⟨hxs, List.pairwise_cons.2 ⟨?_, hys⟩, ?_⟩
    · exact fun a ha hPa => absurd hPa (hnone a ha)
    · intro a ha b hb hPb
      rcases List.mem_cons.1 hb with rfl | hb
      · exact absurd hPb hn
      · exact hcross a ha b hb hPb

theorem Contiguous.together_around (h : Contiguous q (xs ++ n :: ys)) (hn : q n = true) :
    ∃ as bs, xs = as ++ xs.filter q ∧ ys = ys.filter q ++ bs ∧
      Together q (xs ++ n :: ys) as (xs.filter q ++ n :: ys.filter q) bs := by
  obtain ⟨as, bs, hx, hy⟩ := h.around hn
  have has : as.filter q = [] := by
    have hfilter := congrArg (List.filter q) hx
    rw [List.filter_append, List.filter_filter] at hfilter
    simpa using hfilter
  have hbs : bs.filter q = [] := by
    have hfilter := congrArg (List.filter q) hy
    rw [List.filter_append, List.filter_filter] at hfilter
    simpa using hfilter
  refine ⟨as, bs, hx, hy, ?_, ?_, ?_, ?_⟩
  · calc xs ++ n :: ys = (as ++ xs.filter q) ++ n :: (ys.filter q ++ bs) := by rw [← hx, ← hy]
      _ = as ++ ((xs.filter q ++ n :: ys.filter q) ++ bs) := by simp
  · simpa using has
  · intro a ha
    rcases List.mem_append.1 ha with ha | ha
    · exact (List.mem_filter.1 ha).2
    · rcases List.mem_cons.1 ha with rfl | ha
      · exact hn
      · exact (List.mem_filter.1 ha).2
  · simpa using hbs

theorem Contiguous.remove (h : Contiguous q (xs ++ n :: ys)) (hnd : (xs ++ n :: ys).Nodup) :
    Contiguous q (xs ++ ys) := by
  classical
  rw [List.nodup_middle, List.nodup_cons, List.mem_append, not_or] at hnd
  have hfilter : ∀ l : List α, n ∉ l → l.filter (fun a => decide (a ≠ n)) = l := fun l hl =>
    List.filter_eq_self.2 fun a ha => by
      rw [decide_eq_true_eq]
      intro heq
      subst heq
      exact hl ha
  have hsub := h.filter fun a => decide (a ≠ n)
  rw [List.filter_append, List.filter_cons, hfilter xs hnd.1.1, hfilter ys hnd.1.2] at hsub
  simpa using hsub

end InstanceTree
