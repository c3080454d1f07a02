import InstanceTree.Json.Reader
import InstanceTree.Proofs.Yields

namespace InstanceTree.Json

mutual

/-- Whether no object in a document has two members of one name. -/
def distinct : Json → Bool
  | .arr items => distinctItems items
  | .obj members => decide (members.map Prod.fst).Nodup && distinctMembers members
  | _ => true

def distinctItems : List Json → Bool
  | [] => true
  | j :: rest => distinct j && distinctItems rest

def distinctMembers : List (String × Json) → Bool
  | [] => true
  | (_, j) :: rest => distinct j && distinctMembers rest

end

variable {j : Json} {items rest : List Json} {members : List (String × Json)} {name : String}

theorem distinct_obj : (obj members).distinct = true ↔
    (members.map Prod.fst).Nodup ∧ distinctMembers members = true := by
  simp [distinct]

theorem distinctItems_cons : distinctItems (j :: rest) = true ↔
    j.distinct = true ∧ distinctItems rest = true := by
  simp [distinctItems]

theorem distinctMembers_cons : distinctMembers ((name, j) :: members) = true ↔
    j.distinct = true ∧ distinctMembers members = true := by
  simp [distinctMembers]

theorem distinctItems_iff : distinctItems items = true ↔ ∀ j ∈ items, j.distinct = true := by
  induction items with
  | nil => simp [distinctItems]
  | cons j rest ih => simp [distinctItems_cons, ih]

theorem Members.set_distinct {ms : Members} (h : (obj ms).distinct = true)
    (hj : j.distinct = true) : (obj (ms.set name j)).distinct = true := by
  have hnames : ∀ (ms : Members) (n : String), n ∈ (ms.set name j).map Prod.fst →
      n = name ∨ n ∈ ms.map Prod.fst := by
    intro ms n
    induction ms with
    | nil => simp [set]
    | cons m rest ih =>
      obtain ⟨n', w⟩ := m
      rw [set]
      split
      · exact .inr
      · intro hn
        rcases List.mem_cons.1 hn with rfl | hn
        · exact .inr List.mem_cons_self
        · exact (ih hn).imp id (List.mem_cons_of_mem _)
  rw [distinct_obj] at h ⊢
  induction ms with
  | nil => simpa [set, distinctMembers] using hj
  | cons m rest ih =>
    obtain ⟨n, w⟩ := m
    obtain ⟨hnd, hmembers⟩ := h
    obtain ⟨hn, hnd⟩ := List.nodup_cons.1 hnd
    obtain ⟨hw, hrest⟩ := distinctMembers_cons.1 hmembers
    rw [set]
    split
    · exact ⟨List.nodup_cons.2 ⟨hn, hnd⟩, distinctMembers_cons.2 ⟨hj, hrest⟩⟩
    · next hne =>
      obtain ⟨hnd', hrest'⟩ := ih ⟨hnd, hrest⟩
      refine ⟨List.nodup_cons.2 ⟨fun hmem => ?_, hnd'⟩, distinctMembers_cons.2 ⟨hw, hrest'⟩⟩
      rcases hnames rest n hmem with heq | hmem
      · exact hne heq
      · exact hn hmem

structure ScansDistinct (fuel : Nat) : Prop where
  value : ∀ cs j rest, scan fuel cs = .ok (j, rest) → j.distinct = true
  items : ∀ cs items rest, scanItems fuel cs = .ok (items, rest) → distinctItems items = true
  members : ∀ seen cs members rest, (obj seen).distinct = true →
    scanMembers fuel seen cs = .ok (members, rest) → (obj members).distinct = true

namespace ScansDistinct

variable {fuel : Nat}

theorem value_succ (ih : ScansDistinct fuel) {cs rest : List Char} {j : Json}
    (h : scan (fuel + 1) cs = .ok (j, rest)) : j.distinct = true := by
  rw [scan] at h
  split at h
  case h_7 =>
    split at h
    · cases h
      rfl
    · obtain ⟨⟨items, cs⟩, hscanned, heq⟩ := bind_eq_ok.1 h
      cases heq
      exact ih.items _ _ _ hscanned
  case h_8 =>
    split at h
    · cases h
      rfl
    · obtain ⟨⟨members, cs⟩, hscanned, heq⟩ := bind_eq_ok.1 h
      cases heq
      exact ih.members [] _ _ _ rfl hscanned
  case h_9 =>
    split at h
    · obtain ⟨⟨n, cs⟩, -, heq⟩ := bind_eq_ok.1 h
      cases heq
      rfl
    · cases h
  case h_1 => cases h
  all_goals
    obtain ⟨⟨x, cs⟩, -, heq⟩ := bind_eq_ok.1 h
    cases heq
    rfl

theorem items_succ (ih : ScansDistinct fuel) {cs rest : List Char} {items : List Json}
    (h : scanItems (fuel + 1) cs = .ok (items, rest)) : distinctItems items = true := by
  rw [scanItems] at h
  obtain ⟨⟨item, cs⟩, hitem, h⟩ := bind_eq_ok.1 h
  have hfirst := ih.value _ _ _ hitem
  simp only at h
  split at h
  · cases h
  · cases h
    exact distinctItems_cons.2 ⟨hfirst, rfl⟩
  · obtain ⟨⟨items, cs⟩, hscanned, heq⟩ := bind_eq_ok.1 h
    cases heq
    exact distinctItems_cons.2 ⟨hfirst, ih.items _ _ _ hscanned⟩
  · cases h

theorem members_succ (ih : ScansDistinct fuel) {seen members : List (String × Json)}
    {cs rest : List Char} (hseen : (obj seen).distinct = true)
    (h : scanMembers (fuel + 1) seen cs = .ok (members, rest)) :
    (obj members).distinct = true := by
  rw [scanMembers] at h
  split at h
  · cases h
  · obtain ⟨⟨name, cs⟩, -, h⟩ := bind_eq_ok.1 h
    simp only at h
    split at h
    · cases h
    · obtain ⟨⟨v, cs⟩, hv, h⟩ := bind_eq_ok.1 h
      have hset : (obj (Members.set seen name v)).distinct = true :=
        Members.set_distinct hseen (ih.value _ _ _ hv)
      simp only at h
      split at h
      · cases h
      · cases h
        exact hset
      · exact ih.members _ _ _ _ hset h
      · cases h
    · cases h
  · cases h

end ScansDistinct

theorem scan_distinct (fuel : Nat) : ScansDistinct fuel := by
  induction fuel with
  | zero => exact ⟨nofun, nofun, nofun⟩
  | succ fuel ih =>
    exact ⟨fun _ _ _ h => ih.value_succ h, fun _ _ _ h => ih.items_succ h,
      fun _ _ _ _ hseen h => ih.members_succ hseen h⟩

/-- The members of every object in a document that is read from a text have names of their
own. -/
theorem parse_distinct {text : String} (h : parse text = .ok j) : j.distinct = true := by
  simp only [parse, bind_eq_ok] at h
  obtain ⟨⟨j', rest⟩, hscan, h⟩ := h
  split at h
  · cases h
    exact (scan_distinct _).value _ _ _ hscan
  · cases h

end InstanceTree.Json
