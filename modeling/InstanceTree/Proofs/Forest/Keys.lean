import InstanceTree.Proofs.Forest.Releasing
import InstanceTree.Proofs.Forest.Rewiring

namespace InstanceTree

namespace Forest

/-- The keys that an element needs below it; nothing else needs any. -/
def keysBelow (s : Schema) (f : Forest) (p : Option NodeId) : List SchemaId :=
  (((p.bind f.kind?).bind (s.nodes[·]?)).map SchemaNode.keys).getD []

/-- A place in front of an instance of a schema node that is no key, or of nothing. -/
def BehindKeys (s : Schema) (f : Forest) (ys : List NodeId) : Prop :=
  ∀ m t, ys.head? = some m → f.kind? m = some t → s.NoKey t

theorem keysBelow_eq {s : Schema} {f : Forest} {n : NodeId} {t : SchemaId} {node : SchemaNode}
    (ht : f.kind? n = some t) (hnode : s.nodes[t]? = some node) :
    f.keysBelow s (some n) = node.keys := by
  simp [keysBelow, ht, hnode]

theorem not_noKey_of_mem_keysBelow {s : Schema} {f : Forest} {p : Option NodeId} {key : SchemaId}
    (hkey : key ∈ f.keysBelow s p) : ¬s.NoKey key := by
  intro hno
  unfold keysBelow at hkey
  cases hnode : (p.bind f.kind?).bind (s.nodes[·]?) with
  | none => simp [hnode] at hkey
  | some node =>
    obtain ⟨t, -, ht⟩ := Option.bind_eq_some_iff.1 hnode
    exact hno t node ht (by simpa [hnode] using hkey)

end Forest

open Forest

/-- Below every parent come first instances of the keys that it needs, one of each in declared
order, and then no more keys. -/
def KeyLed (s : Schema) (f : Forest) (k : Layout) : Prop :=
  ∀ p, ∃ cs rest, k p = cs ++ rest ∧ cs.map f.kind? = (f.keysBelow s p).map some ∧
    ∀ m ∈ rest, ∀ t, f.kind? m = some t → s.NoKey t

namespace KeyLed

variable {s : Schema} {f g : Forest} {k : Layout} {p : Option NodeId} {n : NodeId} {t : SchemaId}
  {xs ys : List NodeId}

theorem of_kind (h : KeyLed s f k) (hkind : g.kind? = f.kind?) : KeyLed s g k := by
  intro p
  obtain ⟨cs, rest, hk, hcs, hrest⟩ := h p
  refine ⟨cs, rest, hk, ?_, ?_⟩
  · rw [keysBelow, hkind]
    exact hcs
  · rw [hkind]
    exact hrest

theorem key_of_mem {cs : List NodeId} (hcs : cs.map f.kind? = (f.keysBelow s p).map some)
    {m : NodeId} (hm : m ∈ cs) : ∃ t, f.kind? m = some t ∧ ¬s.NoKey t := by
  have hmem := List.mem_map_of_mem (f := f.kind?) hm
  rw [hcs] at hmem
  obtain ⟨key, hkey, heq⟩ := List.mem_map.1 hmem
  exact ⟨key, heq.symm, not_noKey_of_mem_keysBelow hkey⟩

theorem place (h : KeyLed s f k) (hk : k p = xs ++ ys) (hn : f.kind? n = some t)
    (hfree : s.NoKey t) (hplace : xs.getLast?.any (f.isOf t) = true ∨ BehindKeys s f ys) :
    KeyLed s f (Function.update k p (xs ++ n :: ys)) := by
  intro q
  by_cases hq : q = p
  · subst hq
    obtain ⟨cs, rest, hsplit, hcs, hrest⟩ := h q
    rw [Function.update_self]
    rcases List.append_eq_append_iff.1 (hk.symm.trans hsplit) with ⟨c, rfl, hys⟩ | ⟨d, rfl, rfl⟩
    · cases c with
      | nil =>
        refine ⟨xs, n :: ys, rfl, by simpa using hcs, ?_⟩
        intro m hm t' ht'
        rcases List.mem_cons.1 hm with rfl | hm
        · cases hn.symm.trans ht'
          exact hfree
        · exact hrest m (by simpa [hys] using hm) t' ht'
      | cons a c =>
        -- the place would be before a key
        obtain ⟨key, hkey, hisKey⟩ := key_of_mem hcs (m := a) (by simp)
        rcases hplace with hlast | hbehind
        · cases hl : xs.getLast? with
          | none => simp [hl] at hlast
          | some b =>
            obtain ⟨key', hkey', hisKey'⟩ :=
              key_of_mem hcs (List.mem_append_left _ (List.mem_of_getLast? hl))
            simp only [hl, Option.any_some, isOf, decide_eq_true_eq] at hlast
            cases hkey'.symm.trans hlast
            exact absurd hfree hisKey'
        · exact absurd (hbehind a key (by simp [hys]) hkey) hisKey
    · refine ⟨cs, d ++ n :: ys, by simp, hcs, ?_⟩
      intro m hm t' ht'
      rcases List.mem_append.1 hm with hm | hm
      · exact hrest m (List.mem_append_left _ hm) t' ht'
      · rcases List.mem_cons.1 hm with rfl | hm
        · cases hn.symm.trans ht'
          exact hfree
        · exact hrest m (List.mem_append_right _ hm) t' ht'
  · rw [Function.update_of_ne hq]
    exact h q

theorem remove (h : KeyLed s f k) (hk : k p = xs ++ n :: ys) (hn : f.kind? n = some t)
    (hfree : s.NoKey t) : KeyLed s f (Function.update k p (xs ++ ys)) := by
  intro q
  by_cases hq : q = p
  · subst hq
    obtain ⟨cs, rest, hsplit, hcs, hrest⟩ := h q
    rw [Function.update_self]
    have hnot : n ∉ cs := by
      intro hmem
      obtain ⟨key, hkey, hisKey⟩ := key_of_mem hcs hmem
      cases hn.symm.trans hkey
      exact hisKey hfree
    rcases List.append_eq_append_iff.1 (hk.symm.trans hsplit) with ⟨c, rfl, hys⟩ | ⟨d, rfl, hys⟩
    · cases c with
      | nil =>
        refine ⟨xs, ys, rfl, by simpa using hcs, ?_⟩
        exact fun m hm => hrest m (by rw [← List.nil_append rest, ← hys]; simp [hm])
      | cons a c =>
        obtain ⟨rfl, -⟩ := List.cons.inj hys
        simp at hnot
    · refine ⟨cs, d ++ ys, by simp, hcs, ?_⟩
      intro m hm
      apply hrest m
      rw [hys]
      simp only [List.mem_append, List.mem_cons] at hm ⊢
      tauto
  · rw [Function.update_of_ne hq]
    exact h q

theorem without (h : KeyLed s f k) (hlaid : Laid s f k) {gone : List NodeId}
    (hbelow : Below k [n] gone) (hloose : ∀ q, n ∉ k q) :
    KeyLed s (f.without gone) (k.without gone) := by
  have hkind : ∀ m, m ∉ gone → (f.without gone).kind? m = f.kind? m := by
    intro m hm
    rw [kind?, kind?, get?_without, if_neg hm]
  intro p
  by_cases hp : p.any (· ∈ gone) = false
  · obtain ⟨cs, rest, hk, hcs, hrest⟩ := h p
    have hmem : ∀ m ∈ k p, m ∉ gone := fun m hm => hlaid.not_mem_gone hbelow hloose hp hm
    refine ⟨cs, rest, by rw [Laid.without_eq hp, hk], ?_, ?_⟩
    · have hkeys : (f.without gone).keysBelow s p = f.keysBelow s p := by
        cases p with
        | none => rfl
        | some i => rw [keysBelow, Option.bind_some, hkind i (by simpa using hp)]; rfl
      rw [hkeys, ← hcs]
      exact List.map_congr_left fun m hm => hkind m (hmem m (by simp [hk, hm]))
    · intro m hm
      rw [hkind m (hmem m (by simp [hk, hm]))]
      exact hrest m hm
  · have hnothing : k.without gone p = [] := by
      rw [Layout.without, if_pos (by simpa using hp)]
    have hkeys : (f.without gone).keysBelow s p = [] := by
      cases p with
      | none => simp at hp
      | some i =>
        have hi : i ∈ gone := by simpa using hp
        simp [keysBelow, kind?, get?_without, hi]
    exact ⟨[], [], hnothing, by rw [hkeys]; rfl, by simp⟩

end KeyLed

end InstanceTree
