import InstanceTree.Proofs.Forest.Releasing

namespace InstanceTree

namespace Forest

/-- With an element the one that it stands below is gone, too. -/
def Upward (k : Layout) (gone : List NodeId) : Prop :=
  ∀ n ∈ gone, ∀ q, n ∈ k (some q) → q ∈ gone

variable {f : Forest} {k : Layout} {gone : List NodeId} {n : NodeId} {e : Element}

theorem Upward.cons (h : Upward k gone) (hn : ∀ q, n ∈ k (some q) → q ∈ gone) :
    Upward k (n :: gone) := by
  intro m hm q hq
  apply List.mem_cons_of_mem
  rcases List.mem_cons.1 hm with rfl | hm
  · exact hn q hq
  · exact h m hm q hq

theorem Live.length_le (h : f.Live gone) : gone.length ≤ f.slots.size := by
  apply length_le_slots h.1
  intro n hn
  obtain ⟨e, he⟩ := h.2 n hn
  exact ⟨_, slot_of_get? he⟩

theorem Live.length_lt (h : f.Live gone) (hn : n ∉ gone) (he : f.get? n = some e) :
    gone.length < f.slots.size :=
  (h.cons hn he).length_le

end Forest

namespace Laid

open Forest

variable {s : Schema} {f : Forest} {k : Layout} {gone more : List NodeId} {n : NodeId}
  {e : Element}

theorem upward_append (h : Laid s f k) (hup : Upward k gone)
    (habove : ∀ q, n ∈ k (some q) → q ∈ gone) (hbelow : Below k [n] more) :
    Upward k (more ++ gone) := by
  intro m hm q hq
  rcases List.mem_append.1 hm with hm | hm
  · rcases hbelow.rooted m hm with hroot | ⟨q', hq', hm'⟩
    · cases List.mem_singleton.1 hroot
      exact List.mem_append_right _ (habove q hq)
    · cases h.unique_parent hq hm'
      exact List.mem_append_left _ hq'
  · exact List.mem_append_right _ (hup m hm q hq)

theorem not_mem_behind (h : Laid s f k) {q m : NodeId} {xs ys : List NodeId} (hq : q ∈ gone)
    (hk : k (some q) = xs ++ n :: ys) (hm : m ∈ ys) (hmore : f.Live (more ++ gone))
    (hbelow : Below k [n] more) : m ∉ more := by
  intro hmem
  rcases hbelow.rooted m hmem with hroot | ⟨q', hq', hm'⟩
  · cases List.mem_singleton.1 hroot
    have hnd := h.nodup (some q)
    rw [hk, List.nodup_append, List.nodup_cons] at hnd
    exact hnd.2.1.1 hm
  · cases h.unique_parent hm' (show m ∈ k (some q) by simp [hk, hm])
    exact (List.nodup_append.1 hmore.1).2.2 _ hq' _ hq rfl

/-- A release ends: every step frees a slot or goes on in a chain after one has been freed, so that
twice the number of slots that live are steps enough. -/
theorem release_ends (h : Laid s f k) (htidy : f.Tidy) (fuel : Nat) :
    (∀ (gone : List NodeId) (n : NodeId) (e : Element), f.Live gone → Upward k gone → n ∉ gone →
      f.get? n = some e → (∀ q, n ∈ k (some q) → q ∈ gone) →
        2 * (f.slots.size - gone.length) ≤ fuel + 1 →
          ∃ g, releaseBelow fuel (f.without gone) n = .ok g) ∧
    ∀ (gone : List NodeId) (q : NodeId) (xs ys : List NodeId), f.Live gone → Upward k gone →
      q ∈ gone → k (some q) = xs ++ ys → (∀ y ∈ ys, y ∉ gone) →
        2 * (f.slots.size - gone.length) ≤ fuel →
          ∃ g, releaseChain fuel (f.without gone) ys.head? = .ok g := by
  induction fuel with
  | zero =>
    constructor
    · intro gone n e hlive _ hn he _ hfuel
      have hlt := hlive.length_lt hn he
      omega
    · intro gone q xs ys hlive _ _ hk hys hfuel
      cases ys with
      | nil => exact ⟨_, rfl⟩
      | cons y ys =>
        obtain ⟨e, he, -⟩ := h.exists_of_mem (p := some q) (n := y) (by simp [hk])
        have hlt := hlive.length_lt (hys y (by simp)) he
        omega
  | succ fuel ih =>
    constructor
    · intro gone n e hlive hup hn he habove hfuel
      have hlt := hlive.length_lt hn he
      have hstay : ∀ y ∈ k (some n), y ∉ n :: gone := by
        intro y hy hmem
        rcases List.mem_cons.1 hmem with rfl | hmem
        · exact hn (habove y hy)
        · exact hn (hup y hmem n hy)
      obtain ⟨g, hg⟩ := ih.2 (n :: gone) n [] _ (hlive.cons hn he) (hup.cons habove) (by simp) rfl
        hstay (by simp only [List.length_cons]; omega)
      exact ⟨g, h.releaseBelow_eq_ok.2 ⟨hn, ⟨e, he, htidy n e he⟩, hg⟩⟩
    · intro gone q xs ys hlive hup hq hk hys hfuel
      cases ys with
      | nil => exact ⟨_, rfl⟩
      | cons y ys =>
        have hy := hys y (by simp)
        have hmem : y ∈ k (some q) := by simp [hk]
        obtain ⟨e, he, -⟩ := h.exists_of_mem hmem
        have habove : ∀ q', y ∈ k (some q') → q' ∈ gone := by
          intro q' hq'
          rwa [Option.some.inj (h.unique_parent hq' hmem)]
        obtain ⟨g₁, hg₁⟩ := ih.1 gone y e hlive hup hy he habove hfuel
        obtain ⟨as, rfl, has, horder⟩ := (h.release_below fuel).1 gone y g₁ hlive hg₁
        have hbelow := Below.of_preorder_reverse horder
        have hlen := has.length_le
        have hpos := List.length_pos_of_mem (hbelow.within y (by simp))
        rw [List.length_append] at hlen
        have hstay : ∀ m ∈ ys, m ∉ as ++ gone := by
          intro m hm hmem'
          rcases List.mem_append.1 hmem' with hmas | hmgone
          · exact h.not_mem_behind hq hk hm has hbelow hmas
          · exact hys m (by simp [hm]) hmgone
        obtain ⟨g, hg⟩ := ih.2 (as ++ gone) q (xs ++ [y]) ys has (h.upward_append hup habove hbelow)
          (List.mem_append_right _ hq) (by simpa using hk) hstay
          (by simp only [List.length_append]; omega)
        exact ⟨g, (h.releaseChain_eq_ok hk).2 ⟨hy, _, hg₁, hg⟩⟩

theorem release_ok (h : Laid s f k) (htidy : f.Tidy) (he : f.get? n = some e)
    (hloose : ∀ q, n ∉ k q) : ∃ g, f.release n = .ok g := by
  obtain ⟨g, hg⟩ := (h.release_ends htidy (2 * f.steps)).1 [] n e ⟨List.nodup_nil, by simp⟩
    (by simp [Upward]) (by simp) he (fun q hq => absurd hq (hloose _))
    (by simp only [steps, List.length_nil]; omega)
  rw [without_nil] at hg
  exact ⟨g, hg⟩

end Laid

end InstanceTree
