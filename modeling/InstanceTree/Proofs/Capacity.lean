import InstanceTree.Proofs.Atomicity
import InstanceTree.Proofs.Document.Linking

namespace InstanceTree

open Edit Forest

theorem SchemaNode.KeptSorted.isKey {s : Schema} {t : SchemaId} {node : SchemaNode}
    (h : node.KeptSorted) (hs : s.Built) (hnode : s.nodes[t]? = some node) :
    node.isKey = false := by
  rw [Bool.eq_false_iff]
  intro hkey
  obtain ⟨⟨type, hleaf⟩, -⟩ := hs.leaf_of_isKey hnode hkey
  obtain ⟨-, ⟨type', hkind⟩ | ⟨key, keys, hkind⟩⟩ := h
  · cases hleaf.symm.trans hkind
  · cases hleaf.symm.trans hkind

/-- Where indexes are limited, the limit is the room for a sorted group, but one instance needs no
index. -/
theorem Context.hasRoom_iff {ctx : Context} {node : SchemaNode} {limit : Nat}
    (hsorted : node.KeptSorted) (hindexes : ctx.indexes = true)
    (hlimit : ctx.options.indexLimit = some limit) (count : Nat) :
    ctx.hasRoom node count = true ↔ count ≤ 1 ∨ count ≤ limit := by
  obtain ⟨kind, hkind⟩ := hsorted.exists_sortKind
  simp [hasRoom, hkind, hindexes, hlimit]

theorem Context.hasRoom_plain {ctx : Context} (hplain : ctx.indexes = false) (node : SchemaNode)
    (count : Nat) : ctx.hasRoom node count = true := by
  simp [hasRoom, hplain]

namespace Forest

/-- A loose instance of `t`, which is kept sorted and may stand below `p`. -/
structure Candidate (ctx : Context) (f : Forest) (p : Option NodeId) (t : SchemaId) (n : NodeId) :
    Prop where
  loose : ∃ e, f.element n = .ok e ∧ e.schema = t ∧ e.linked = false
  fits : ∃ node, ctx.schema.get t = .ok node ∧ node.KeptSorted ∧
    p.mapM f.schemaOf = .ok node.parent

theorem alive_of_mapM {f : Forest} {p : Option NodeId} {x : Option SchemaId}
    (h : p.mapM f.schemaOf = .ok x) : f.Alive p := by
  intro i hi
  subst hi
  rw [Option.mapM_some] at h
  cases ht : f.schemaOf i with
  | error why =>
    rw [ht] at h
    cases h
  | ok t =>
    obtain ⟨e, he, -⟩ := get?_of_kind? (schemaOf_eq_ok.1 ht)
    exact ⟨e, he⟩

end Forest

namespace Sound

variable {ctx : Context} {f g : Forest} {k : Layout} {p : Option NodeId} {n : NodeId}
  {t : SchemaId} {node : SchemaNode}

theorem insertChild_candidate (h : Sound ctx f k) (hs : ctx.schema.Built)
    (hn : f.Candidate ctx p t n) (hnode : ctx.schema.get t = .ok node) :
    if ctx.hasRoom node ((f.group k p t).length + 1) then
      ∃ g, (insertChild ctx p n).perform f = .ok (.ok (), g)
    else (insertChild ctx p n).perform f = .ok (.error .indexFull, f) := by
  obtain ⟨⟨e, he, rfl, hloose⟩, node', hnode', hsorted, hparent⟩ := hn
  cases hnode.symm.trans hnode'
  rw [element_eq_some] at he
  have hnode := Schema.get_eq_ok.1 hnode
  have hp := alive_of_mapM hparent
  rw [Option.mapM_schemaOf hp] at hparent
  have hparent : node.parent = p.bind f.kind? := (Except.ok.inj hparent).symm
  have hkey := hsorted.isKey hs hnode
  obtain ⟨⟨r, g⟩, hr⟩ := insertChild_ends h hs hp he
  have hatomic := insertChild_atomic h hs p n r g hr
  cases r with
  | error why =>
    cases hatomic
    obtain ⟨hiff, hfull⟩ := insertChild_refused h hs hp he hnode _ _ hr why rfl
    cases hiff.2 ⟨hloose, hparent, hkey⟩
    rw [hfull rfl]
    exact hr
  | ok _ =>
    obtain ⟨e', node', xs, ys, hnode', hplacing, -⟩ := hatomic
    cases he.symm.trans hplacing.lives
    have hroom := hplacing.sound.hasRoom hnode p
    have hlen : (g.group (Function.update k p (xs ++ n :: ys)) p e.schema).length =
        (f.group k p e.schema).length + 1 := by
      have hof : g.isOf e.schema = f.isOf e.schema := by
        funext m
        simp [isOf, hplacing.kind?_eq]
      have hself : f.isOf e.schema n = true := by simp [isOf, kind?, he]
      rw [group, group, Function.update_self, hplacing.split, hof]
      simp [hself]
      omega
    rw [hlen] at hroom
    rw [hroom]
    exact ⟨g, hr⟩

theorem length_of_removing {f' : Forest} {m : NodeId} {e : Element} {q : Option NodeId}
    {xs ys : List NodeId} (hk : m ∈ k p) (hof : f.isOf t m = true)
    (hremoving : Removing ctx f k q m e xs ys f') (hlaid : Laid ctx.schema f k) :
    (f'.group (Function.update k q (xs ++ ys)) p t).length + 1 = (f.group k p t).length := by
  cases hlaid.unique_parent hk (by simp [hremoving.split] : m ∈ k q)
  have hsame : f'.isOf t = f.isOf t := by
    funext i
    simp [isOf, hremoving.kind?_eq]
  rw [group, group, Function.update_self, hremoving.split, hsame]
  simp [hof]
  omega

theorem exists_length_of_removal (h : Sound ctx f k) (hs : ctx.schema.Built) {m : NodeId}
    (hk : m ∈ k p) (hof : f.isOf t m = true)
    (hg : (unlink ctx m).perform f = .ok (.ok (), g) ∨ (free ctx m).perform f = .ok (.ok (), g))
    (hp : g.Alive p) : ∃ k', Sound ctx g k' ∧
      (g.group k' p t).length + 1 = (f.group k p t).length := by
  rcases hg with hg | hg
  · obtain ⟨q, e, xs, ys, hremoving⟩ := unlink_atomic h hs m _ _ hg
    exact ⟨_, hremoving.sound, length_of_removing hk hof hremoving h.laid⟩
  · obtain ⟨f', k', gone, hsound, hreleasing, hwhence⟩ := free_atomic h hs m _ _ hg
    rcases hwhence with ⟨rfl, rfl⟩ | ⟨q, e, xs, ys, rfl, hremoving⟩
    · exact absurd hk (hreleasing.loose p)
    · refine ⟨_, hreleasing.sound, ?_⟩
      have hstays : p.any (· ∈ gone) = false := by
        cases p with
        | none => rfl
        | some i =>
          obtain ⟨ei, hei⟩ := hp i rfl
          rw [hreleasing.eq] at hei
          simpa using (get?_without_eq_some.1 hei).1
      rw [hreleasing.eq, hsound.laid.group_without hreleasing.below hreleasing.loose hstays]
      exact length_of_removing hk hof hremoving h.laid

/-- With a limit, a candidate is refused where its group has members and as many as the limit
says, and nowhere else. -/
theorem insertChild_limited (h : Sound ctx f k) (hs : ctx.schema.Built)
    (hindexes : ctx.indexes = true) {limit : Nat} (hlimit : ctx.options.indexLimit = some limit)
    (hn : f.Candidate ctx p t n) :
    ((∃ g, (insertChild ctx p n).perform f = .ok (.error .indexFull, g)) ↔
      1 ≤ (f.group k p t).length ∧ limit ≤ (f.group k p t).length) ∧
    (¬(1 ≤ (f.group k p t).length ∧ limit ≤ (f.group k p t).length) →
      ∃ g, (insertChild ctx p n).perform f = .ok (.ok (), g)) := by
  obtain ⟨node, hnode, hsorted, -⟩ := hn.fits
  have hplace := h.insertChild_candidate hs hn hnode
  have hroom := Context.hasRoom_iff hsorted hindexes hlimit ((f.group k p t).length + 1)
  split at hplace
  · next hhas =>
    have hcount := hroom.1 hhas
    refine ⟨iff_of_false ?_ (by omega), fun _ => hplace⟩
    intro hfull
    obtain ⟨g, hg⟩ := hplace
    obtain ⟨g', hg'⟩ := hfull
    cases hg.symm.trans hg'
  · next hhas =>
    have hcount := mt hroom.2 hhas
    exact ⟨iff_of_true ⟨f, hplace⟩ (by omega), fun hless => absurd (by omega) hless⟩

theorem length_le_limit (h : Sound ctx f k) (hindexes : ctx.indexes = true) {limit : Nat}
    (hlimit : ctx.options.indexLimit = some limit) (hnode : ctx.schema.nodes[t]? = some node)
    (hsorted : node.KeptSorted) (p : Option NodeId) : (f.group k p t).length ≤ max limit 1 := by
  have hroom := (Context.hasRoom_iff hsorted hindexes hlimit _).1 (h.hasRoom hnode p)
  omega

theorem insertChild_plain (h : Sound ctx f k) (hs : ctx.schema.Built)
    (hplain : ctx.indexes = false) (hn : f.Candidate ctx p t n) :
    ∃ g, (insertChild ctx p n).perform f = .ok (.ok (), g) := by
  obtain ⟨node, hnode, -⟩ := hn.fits
  have hplace := h.insertChild_candidate hs hn hnode
  rwa [Context.hasRoom_plain hplain, if_pos rfl] at hplace

end Sound

/-- The limit of an index is kept exactly: a sorted group grows until it has as many members as the
limit says, but always to one; what is unlinked or freed makes room at once; and without indexes
there is no limit. -/
theorem Reachable.limit_exact {ctx : Context} {f : Forest} (h : Reachable ctx f)
    (hs : ctx.schema.Built) :
    (∀ limit, ctx.indexes = true → ctx.options.indexLimit = some limit →
      (∀ p t n l, f.Candidate ctx p t n → f.children p = .ok l →
        ((∃ g, (insertChild ctx p n).perform f = .ok (.error .indexFull, g)) ↔
          1 ≤ l.countP (f.isOf t) ∧ limit ≤ l.countP (f.isOf t)) ∧
        (¬(1 ≤ l.countP (f.isOf t) ∧ limit ≤ l.countP (f.isOf t)) →
          ∃ g, (insertChild ctx p n).perform f = .ok (.ok (), g))) ∧
      (∀ p t node l, ctx.schema.get t = .ok node → node.KeptSorted → f.children p = .ok l →
        l.countP (f.isOf t) ≤ max limit 1) ∧
      (∀ p t m l g, f.children p = .ok l → m ∈ l → f.isOf t m = true →
        (unlink ctx m).perform f = .ok (.ok (), g) ∨ (free ctx m).perform f = .ok (.ok (), g) →
        ∀ n, g.Candidate ctx p t n → ∃ g', (insertChild ctx p n).perform g = .ok (.ok (), g'))) ∧
    (ctx.indexes = false →
      (∀ p t n, f.Candidate ctx p t n → ∃ g, (insertChild ctx p n).perform f = .ok (.ok (), g)) ∧
      ∀ p n g, f.Alive p → f.Alive (some n) →
        (insertChild ctx p n).perform f ≠ .ok (.error .indexFull, g)) := by
  obtain ⟨k, hsound⟩ := h.sound hs
  have hcount : ∀ p t l, f.children p = .ok l → l.countP (f.isOf t) = (f.group k p t).length := by
    intro p t l hl
    rw [(hsound.laid.eq_of_children hl).2, List.countP_eq_length_filter]
    rfl
  refine ⟨fun limit hindexes hlimit => ⟨?_, ?_, ?_⟩, fun hplain => ⟨?_, ?_⟩⟩
  · intro p t n l hn hl
    rw [hcount p t l hl]
    exact hsound.insertChild_limited hs hindexes hlimit hn
  · intro p t node l hnode hsorted hl
    rw [hcount p t l hl]
    exact hsound.length_le_limit hindexes hlimit (Schema.get_eq_ok.1 hnode) hsorted p
  · intro p t m l g hl hm hof hg n hn
    obtain ⟨node, hnode, hsorted, hparent⟩ := hn.fits
    have hmem : m ∈ k p := (hsound.laid.eq_of_children hl).2 ▸ hm
    obtain ⟨k', hsound', hlen⟩ :=
      hsound.exists_length_of_removal hs hmem hof hg (alive_of_mapM hparent)
    have hle := hsound.length_le_limit hindexes hlimit (Schema.get_eq_ok.1 hnode) hsorted p
    exact (hsound'.insertChild_limited hs hindexes hlimit hn).2 (by omega)
  · exact fun p t n hn => hsound.insertChild_plain hs hplain hn
  · intro p n g hp hn hfull
    obtain ⟨e, he⟩ := hn n rfl
    obtain ⟨node, -, hnode⟩ := schemaNode_ok hsound.laid he
    have hroom := (insertChild_refused hsound hs hp he hnode _ _ hfull _ rfl).2 rfl
    cases hroom.symm.trans (Context.hasRoom_plain hplain node _)

/-- A third number is refused where the limit allows two, until one of the two is unlinked. -/
theorem Reachable.limit_exact_of_two : ∃ f g, Reachable (.ofFewNumbers 2) f ∧
    f.children none = .ok [0, 1] ∧ f.Candidate (.ofFewNumbers 2) none 0 2 ∧
      (∃ g, (insertChild (.ofFewNumbers 2) none 2).perform f = .ok (.error .indexFull, g)) ∧
        (unlink (.ofFewNumbers 2) 0).perform f = .ok (.ok (), g) ∧
          ∃ g', (insertChild (.ofFewNumbers 2) none 2).perform g = .ok (.ok (), g') := by
  have hthree := (((Reachable.empty : Reachable (.ofFewNumbers 2) .empty).step
    (.createTerm 0 (.uint 5)) rfl).step (.createTerm 0 (.uint 7)) rfl).step
      (.createTerm 0 (.uint 6)) rfl
  have h := (hthree.step (.insertChild none 0) rfl).step (.insertChild none 1) rfl
  obtain ⟨f, g, h, hchildren, hcount, hzero, hunlink, hn, hn'⟩ :
      ∃ f g, Reachable (.ofFewNumbers 2) f ∧ f.children none = .ok [0, 1] ∧
        [0, 1].countP (f.isOf 0) = 2 ∧ f.isOf 0 0 = true ∧
        (unlink (.ofFewNumbers 2) 0).perform f = .ok (.ok (), g) ∧
        f.Candidate (.ofFewNumbers 2) none 0 2 ∧ g.Candidate (.ofFewNumbers 2) none 0 2 :=
    ⟨_, _, h, rfl, rfl, rfl, rfl,
      ⟨⟨_, rfl, rfl, rfl⟩, _, rfl, ⟨rfl, .inl ⟨_, rfl⟩⟩, rfl⟩,
      ⟨⟨_, rfl, rfl, rfl⟩, _, rfl, ⟨rfl, .inl ⟨_, rfl⟩⟩, rfl⟩⟩
  obtain ⟨hplace, -, hagain⟩ := (h.limit_exact Schema.numbers_built).1 2 rfl rfl
  have hfull := (hplace none 0 2 [0, 1] hn hchildren).1.2 (by rw [hcount]; omega)
  have hroom := hagain none 0 0 [0, 1] g hchildren (by simp) hzero (.inl hunlink) 2 hn'
  exact ⟨f, g, h, hchildren, hn, hfull, hunlink, hroom⟩

end InstanceTree
