import InstanceTree.Forest.Edit
import InstanceTree.Proofs.Yields

namespace InstanceTree.Edit

variable {α β : Type} {f g : Forest}

section Perform

theorem perform_pure (a : α) (f : Forest) : (pure a : Edit α).perform f = .ok (.ok a, f) := rfl

theorem perform_bind (op : Edit α) (next : α → Edit β) (f : Forest) :
    (op >>= next).perform f = op.perform f >>= fun out => match out.1 with
      | .ok a => (next a).perform out.2
      | .error why => .ok (.error why, out.2) := by
  simp only [perform, ExceptT.run_bind, StateT.run_bind]
  refine congrArg (op.run.run f >>= ·) (funext fun out => ?_)
  obtain ⟨_ | _, g⟩ := out <;> rfl

theorem perform_bind_ok {op : Edit α} {next : α → Edit β} {a : α}
    (h : op.perform f = .ok (.ok a, g)) : (op >>= next).perform f = (next a).perform g := by
  rw [perform_bind, h, ok_bind]

theorem perform_bind_error {op : Edit α} {next : α → Edit β} {why : Refusal}
    (h : op.perform f = .ok (.error why, g)) :
    (op >>= next).perform f = .ok (.error why, g) := by
  rw [perform_bind, h, ok_bind]

theorem perform_look (view : Forest → Except Fault α) (f : Forest) :
    (look view).perform f = view f >>= fun a => .ok (.ok a, f) := by
  have hview : (look view).perform f = (liftM (view f) : Edit α).perform f := rfl
  rw [hview]
  cases view f <;> rfl

theorem perform_look_ok {view : Forest → Except Fault α} {a : α} (h : view f = .ok a) :
    (look view).perform f = .ok (.ok a, f) := by
  rw [perform_look, h, ok_bind]

theorem mapM_look_some {ι : Type} (view : ι → Forest → Except Fault α) (i : ι) :
    ((some i).mapM fun i => look (view i)) = look (view i) >>= fun a => pure (some a) := by
  rw [Option.mapM_some, map_eq_pure_bind]

theorem perform_change (c : Forest → Except Fault Forest) (f : Forest) :
    (change c).perform f = c f >>= fun g => .ok (.ok (), g) := by
  have hset : (change c).perform f = (look c >>= fun g => set g : Edit Unit).perform f := rfl
  rw [hset, perform_bind, perform_look]
  cases c f <;> rfl

theorem perform_change_ok {c : Forest → Except Fault Forest} (h : c f = .ok g) :
    (change c).perform f = .ok (.ok (), g) := by
  rw [perform_change, h, ok_bind]

theorem perform_refuse (why : Refusal) (f : Forest) :
    (refuse why : Edit α).perform f = .ok (.error why, f) := rfl

theorem perform_tryCatch (op : Edit α) (handle : Refusal → Edit α) (f : Forest) :
    (tryCatch op handle).perform f = op.perform f >>= fun out => match out.1 with
      | .ok a => .ok (.ok a, out.2)
      | .error why => (handle why).perform out.2 := by
  simp only [perform]
  show (ExceptT.run (ExceptT.tryCatch op handle)).run f = _
  simp only [ExceptT.tryCatch, ExceptT.run_mk, StateT.run_bind]
  refine congrArg (op.run.run f >>= ·) (funext fun out => ?_)
  obtain ⟨_ | _, g⟩ := out <;> rfl

end Perform

/-- Whatever an edit results in, refused or not, has a property. -/
def Ensures (op : Edit α) (f : Forest) (Q : Except Refusal α → Forest → Prop) : Prop :=
  ∀ r g, op.perform f = .ok (r, g) → Q r g

namespace Ensures

variable {op : Edit α} {next : α → Edit β} {P Q : Except Refusal α → Forest → Prop}
  {R : Except Refusal β → Forest → Prop}

theorem mono (h : Ensures op f P) (hQ : ∀ r g, P r g → Q r g) : Ensures op f Q :=
  fun r g hr => hQ r g (h r g hr)

theorem pure {a : α} (h : Q (.ok a) f) : Ensures (pure a) f Q := by
  intro r g hr
  rw [perform_pure] at hr
  cases hr
  exact h

theorem refuse {why : Refusal} (h : Q (.error why) f) : Ensures (refuse why) f Q := by
  intro r g hr
  rw [perform_refuse] at hr
  cases hr
  exact h

theorem look {view : Forest → Except Fault α} (h : ∀ a, view f = .ok a → Q (.ok a) f) :
    Ensures (look view) f Q := by
  intro r g hr
  rw [perform_look, bind_eq_ok] at hr
  obtain ⟨a, ha, hr⟩ := hr
  cases hr
  exact h a ha

theorem change {c : Forest → Except Fault Forest} {Q : Except Refusal Unit → Forest → Prop}
    (h : ∀ g, c f = .ok g → Q (.ok ()) g) : Ensures (change c) f Q := by
  intro r g hr
  rw [perform_change, bind_eq_ok] at hr
  obtain ⟨g', hg, hr⟩ := hr
  cases hr
  exact h g hg

theorem bind (h : Ensures op f P) (hok : ∀ a g, P (.ok a) g → Ensures (next a) g R)
    (herror : ∀ why g, P (.error why) g → R (.error why) g) : Ensures (op >>= next) f R := by
  intro r g hr
  rw [perform_bind, bind_eq_ok] at hr
  obtain ⟨⟨out, g'⟩, hop, hr⟩ := hr
  have hP := h out g' hop
  cases out with
  | ok a => exact hok a g' hP r g hr
  | error why =>
    cases hr
    exact herror why g' hP

theorem tryCatch {handle : Refusal → Edit α} (h : Ensures op f P)
    (hok : ∀ a g, P (.ok a) g → Q (.ok a) g)
    (herror : ∀ why g, P (.error why) g → Ensures (handle why) g Q) :
    Ensures (tryCatch op handle) f Q := by
  intro r g hr
  rw [perform_tryCatch, bind_eq_ok] at hr
  obtain ⟨⟨out, g'⟩, hop, hr⟩ := hr
  have hP := h out g' hop
  cases out with
  | ok a =>
    cases hr
    exact hok a g' hP
  | error why => exact herror why g' hP r g hr

theorem and (h : Ensures op f P) (h' : Ensures op f Q) : Ensures op f fun r g => P r g ∧ Q r g :=
  fun r g hr => ⟨h r g hr, h' r g hr⟩

theorem bind_look {view : Forest → Except Fault α}
    (h : ∀ a, view f = .ok a → Ensures (next a) f R) : Ensures (Edit.look view >>= next) f R := by
  refine bind (P := fun r g => ∃ a, r = .ok a ∧ g = f ∧ view f = .ok a)
    (look fun a ha => ⟨a, rfl, rfl, ha⟩) ?_ ?_
  · intro a g hg
    obtain ⟨b, hb, rfl, ha⟩ := hg
    cases hb
    exact h a ha
  · intro why g hg
    obtain ⟨b, hb, -⟩ := hg
    cases hb

theorem of_look {view : Forest → Except Fault α}
    (h : ∀ a, view f = .ok a → Ensures (Edit.look view >>= next) f R) :
    Ensures (Edit.look view >>= next) f R := by
  intro r g hr
  have hlook := hr
  rw [perform_bind, perform_look, bind_eq_ok] at hlook
  obtain ⟨_, hview, -⟩ := hlook
  obtain ⟨a, ha, -⟩ := bind_eq_ok.1 hview
  exact h a ha r g hr

theorem bind_look_ok {view : Forest → Except Fault α} {a : α} (ha : view f = .ok a)
    (h : Ensures (next a) f R) : Ensures (Edit.look view >>= next) f R := by
  apply bind_look
  intro b hb
  cases ha.symm.trans hb
  exact h

theorem guard {c : Prop} [Decidable c] {why : Refusal} {rest : Edit β}
    (hrefuse : c → R (.error why) f) (hpass : ¬c → Ensures rest f R) :
    Ensures (if c then Edit.refuse why >>= fun _ : Unit => rest else rest) f R := by
  split
  · next hc =>
    refine bind (P := fun r g => r = .error why ∧ g = f) (Ensures.refuse ⟨rfl, rfl⟩) ?_ ?_
    · intro a g hg
      obtain ⟨hr, -⟩ := hg
      cases hr
    · intro why' g hg
      obtain ⟨hr, rfl⟩ := hg
      cases hr
      exact hrefuse hc
  · next hc => exact hpass hc

theorem bind_mapM_look {ι : Type} {link : Option ι} {view : ι → Forest → Except Fault α}
    {next : Option α → Edit β} (hnone : link = none → Ensures (next none) f R)
    (hsome : ∀ i a, link = some i → view i f = .ok a → Ensures (next (some a)) f R) :
    Ensures ((link.mapM fun i => Edit.look (view i)) >>= next) f R := by
  cases link with
  | none => exact hnone rfl
  | some i =>
    rw [mapM_look_some, bind_assoc]
    exact bind_look fun a ha => hsome i a rfl ha

theorem bind_change {c : Forest → Except Fault Forest} {next : Unit → Edit β}
    (h : ∀ g, c f = .ok g → Ensures (next ()) g R) : Ensures (Edit.change c >>= next) f R := by
  refine bind (P := fun r g => r = .ok () ∧ c f = .ok g) (change fun g hg => ⟨rfl, hg⟩) ?_ ?_
  · intro a g hg'
    obtain ⟨-, hg⟩ := hg'
    exact h g hg
  · intro why g hg
    obtain ⟨hr, -⟩ := hg
    cases hr

end Ensures

/-- What an edit gives has a property, and there is a reason if it is refused. -/
def Passes (op : Edit α) (f : Forest) (P : α → Forest → Prop) (why : Prop) : Prop :=
  Ensures op f fun r g => match r with
    | .ok a => P a g
    | .error _ => why

namespace Passes

variable {op : Edit α} {next : α → Edit β} {P P' : α → Forest → Prop} {R : β → Forest → Prop}
  {why why' : Prop}

theorem pure {a : α} (h : P a f) : Passes (pure a) f P why :=
  Ensures.pure h

theorem refuse {refusal : Refusal} (h : why) : Passes (Edit.refuse refusal) f P why :=
  Ensures.refuse h

theorem mono (h : Passes op f P why) (hP : ∀ a g, P a g → P' a g) (hwhy : why → why') :
    Passes op f P' why' := by
  refine Ensures.mono h fun r g hr => ?_
  cases r with
  | ok a => exact hP a g hr
  | error _ => exact hwhy hr

theorem bind (h : Passes op f P why) (hnext : ∀ a g, P a g → Passes (next a) g R why')
    (hwhy : why → why') : Passes (op >>= next) f R why' :=
  Ensures.bind h (fun a g hg => hnext a g hg) fun _ _ hg => hwhy hg

theorem bind_look_ok {view : Forest → Except Fault α} {a : α} (ha : view f = .ok a)
    (h : Passes (next a) f R why) : Passes (Edit.look view >>= next) f R why :=
  Ensures.bind_look_ok ha h

theorem and_ensures (h : Passes op f P why) (h' : Ensures op f fun r g => ∀ a, r = .ok a → P' a g) :
    Passes op f (fun a g => P a g ∧ P' a g) why := by
  refine Ensures.mono (Ensures.and h h') fun r g hr => ?_
  cases r with
  | ok a => exact ⟨hr.1, hr.2 a rfl⟩
  | error _ => exact hr.1

end Passes

/-- An edit meets no fault, and what it results in, refused or not, has a property. -/
def Lands (op : Edit α) (f : Forest) (Q : Except Refusal α → Forest → Prop) : Prop :=
  ∃ r g, op.perform f = .ok (r, g) ∧ Q r g

namespace Lands

variable {op : Edit α} {next : α → Edit β} {P Q : Except Refusal α → Forest → Prop}
  {R : Except Refusal β → Forest → Prop}

theorem intro {r : Except Refusal α} (h : op.perform f = .ok (r, g)) (hQ : Q r g) :
    Lands op f Q :=
  ⟨r, g, h, hQ⟩

theorem mono (h : Lands op f P) (hQ : ∀ r g, P r g → Q r g) : Lands op f Q := by
  obtain ⟨r, g, hr, hP⟩ := h
  exact ⟨r, g, hr, hQ r g hP⟩

/-- There is one result, so that it has the property whenever it is met. -/
theorem ensures (h : Lands op f Q) : Ensures op f Q := by
  obtain ⟨r, g, hr, hQ⟩ := h
  intro r' g' hr'
  cases hr.symm.trans hr'
  exact hQ

theorem and_ensures (h : Lands op f P) (hQ : Ensures op f Q) :
    Lands op f fun r g => P r g ∧ Q r g := by
  obtain ⟨r, g, hr, hP⟩ := h
  exact ⟨r, g, hr, hP, hQ r g hr⟩

theorem pure {a : α} (h : Q (.ok a) f) : Lands (pure a) f Q :=
  ⟨.ok a, f, perform_pure a f, h⟩

theorem refuse {why : Refusal} (h : Q (.error why) f) : Lands (refuse why) f Q :=
  ⟨.error why, f, perform_refuse why f, h⟩

theorem change {c : Forest → Except Fault Forest} {Q : Except Refusal Unit → Forest → Prop}
    (hc : c f = .ok g) (h : Q (.ok ()) g) : Lands (change c) f Q :=
  ⟨.ok (), g, perform_change_ok hc, h⟩

theorem bind (h : Lands op f P) (hok : ∀ a g, P (.ok a) g → Lands (next a) g R)
    (herror : ∀ why g, P (.error why) g → R (.error why) g) : Lands (op >>= next) f R := by
  obtain ⟨out, g, hop, hP⟩ := h
  cases out with
  | ok a =>
    obtain ⟨r, g', hr, hR⟩ := hok a g hP
    exact ⟨r, g', (perform_bind_ok hop).trans hr, hR⟩
  | error why => exact ⟨.error why, g, perform_bind_error hop, herror why g hP⟩

theorem bind_look {view : Forest → Except Fault α} {a : α} (ha : view f = .ok a)
    (h : Lands (next a) f R) : Lands (Edit.look view >>= next) f R := by
  obtain ⟨r, g, hr, hR⟩ := h
  exact ⟨r, g, (perform_bind_ok (perform_look_ok ha)).trans hr, hR⟩

theorem bind_change {c : Forest → Except Fault Forest} {next : Unit → Edit β} (hc : c f = .ok g)
    (h : Lands (next ()) g R) : Lands (Edit.change c >>= next) f R := by
  obtain ⟨r, g', hr, hR⟩ := h
  exact ⟨r, g', (perform_bind_ok (perform_change_ok hc)).trans hr, hR⟩

theorem guard {c : Prop} [Decidable c] {why : Refusal} {rest : Edit β}
    (hrefuse : c → R (.error why) f) (hpass : ¬c → Lands rest f R) :
    Lands (if c then Edit.refuse why >>= fun _ : Unit => rest else rest) f R := by
  split
  · next hc =>
    exact ⟨.error why, f, perform_bind_error (perform_refuse why f), hrefuse hc⟩
  · next hc => exact hpass hc

theorem tryCatch {handle : Refusal → Edit α} (h : Lands op f P)
    (hok : ∀ a g, P (.ok a) g → Q (.ok a) g)
    (herror : ∀ why g, P (.error why) g → Lands (handle why) g Q) :
    Lands (tryCatch op handle) f Q := by
  obtain ⟨out, g, hop, hP⟩ := h
  cases out with
  | ok a =>
    refine ⟨.ok a, g, ?_, hok a g hP⟩
    rw [perform_tryCatch, hop, ok_bind]
  | error why =>
    obtain ⟨r, g', hr, hQ⟩ := herror why g hP
    refine ⟨r, g', ?_, hQ⟩
    rw [perform_tryCatch, hop, ok_bind]
    exact hr

end Lands

theorem exists_of_isOk {op : Edit α} (h : (op.perform f).toOption.any (·.1.isOk) = true) :
    ∃ a g, op.perform f = .ok (.ok a, g) := by
  cases hop : op.perform f with
  | error why => simp [hop, Except.toOption] at h
  | ok out =>
    obtain ⟨r, g⟩ := out
    cases r with
    | ok a => exact ⟨a, g, rfl⟩
    | error why => simp [hop, Except.toOption, Except.isOk, Except.toBool] at h

def Ends (op : Edit α) (f : Forest) : Prop :=
  ∃ out, op.perform f = .ok out

theorem Lands.ends {op : Edit α} {P : Except Refusal α → Forest → Prop} (h : Lands op f P) :
    Ends op f := by
  obtain ⟨r, g, hr, -⟩ := h
  exact ⟨(r, g), hr⟩

namespace Ends

variable {op : Edit α} {next : α → Edit β} {P : Except Refusal α → Forest → Prop}

theorem lands (h : Ends op f) (hP : Ensures op f P) : Lands op f P := by
  obtain ⟨⟨r, g⟩, hr⟩ := h
  exact ⟨r, g, hr, hP r g hr⟩

theorem pure (a : α) : Ends (pure a : Edit α) f :=
  ⟨_, perform_pure a f⟩

theorem change {c : Forest → Except Fault Forest} (hc : c f = .ok g) : Ends (change c) f :=
  ⟨_, perform_change_ok hc⟩

theorem bind_lands (h : Lands op f P) (hok : ∀ a g, P (.ok a) g → Ends (next a) g) :
    Ends (op >>= next) f := by
  obtain ⟨r, g, hop, hP⟩ := h
  cases r with
  | ok a =>
    obtain ⟨out, hout⟩ := hok a g hP
    exact ⟨out, (perform_bind_ok hop).trans hout⟩
  | error why => exact ⟨_, perform_bind_error hop⟩

theorem bind (h : Ends op f) (hP : Ensures op f P)
    (hok : ∀ a g, P (.ok a) g → Ends (next a) g) : Ends (op >>= next) f :=
  bind_lands (h.lands hP) hok

theorem report (h : Ends op f) (k : α → β) : Ends (op >>= fun a => Pure.pure (k a)) f :=
  h.bind (P := fun _ _ => True) (fun _ _ _ => trivial) fun _ _ _ => Ends.pure _

theorem bind_look {view : Forest → Except Fault α} {a : α} (ha : view f = .ok a)
    (h : Ends (next a) f) : Ends (Edit.look view >>= next) f := by
  obtain ⟨out, hout⟩ := h
  exact ⟨out, (perform_bind_ok (perform_look_ok ha)).trans hout⟩

theorem bind_change {c : Forest → Except Fault Forest} {next : Unit → Edit β} (hc : c f = .ok g)
    (h : Ends (next ()) g) : Ends (Edit.change c >>= next) f := by
  obtain ⟨out, hout⟩ := h
  exact ⟨out, (perform_bind_ok (perform_change_ok hc)).trans hout⟩

theorem guard {c : Prop} [Decidable c] {why : Refusal} {rest : Edit β} (hpass : ¬c → Ends rest f) :
    Ends (if c then Edit.refuse why >>= fun _ : Unit => rest else rest) f := by
  split
  · exact ⟨_, perform_bind_error (perform_refuse why f)⟩
  · next hc => exact hpass hc

end Ends

/-- Handles run out while an edit stores `n` elements. -/
def Overflows (n : Nat) (op : Edit α) (f : Forest) : Prop :=
  op.perform f = .error .storeFull ∧ handleCount < f.size + n

/-- An edit stores `n` elements, and not as many if it is refused; what it results in has a
property. Only if there are no handles left for the elements it meets a fault. -/
def Fits (n : Nat) (op : Edit α) (f : Forest) (Q : Except Refusal α → Forest → Prop) : Prop :=
  Lands op f (fun r g => Q r g ∧ ∀ a, r = .ok a → g.size = f.size + n) ∨ Overflows n op f

namespace Fits

variable {op : Edit α} {next : α → Edit β} {P Q : Except Refusal α → Forest → Prop}
  {R : Except Refusal β → Forest → Prop} {m n : Nat}

theorem of_lands (h : Lands op f Q)
    (hsize : Ensures op f fun r g => ∀ a, r = .ok a → g.size = f.size) : Fits 0 op f Q :=
  .inl (h.and_ensures hsize)

theorem pure {a : α} (h : Q (.ok a) f) : Fits 0 (pure a) f Q :=
  .inl (Lands.pure ⟨h, fun _ _ => rfl⟩)

theorem refuse {why : Refusal} (h : Q (.error why) f) : Fits n (refuse why) f Q := by
  refine .inl (Lands.refuse ⟨h, ?_⟩)
  rintro _ ⟨⟩

theorem mono (h : Fits n op f P) (hQ : ∀ r g, P r g → Q r g) : Fits n op f Q :=
  h.imp_left fun h => h.mono fun r g hr => ⟨hQ r g hr.1, hr.2⟩

theorem ensures (h : Fits n op f Q) : Ensures op f Q := by
  rcases h with h | h
  · exact h.ensures.mono fun _ _ hr => hr.1
  · intro r g hr
    cases h.1.symm.trans hr

theorem size_eq (h : Fits n op f Q) :
    Ensures op f fun r g => ∀ a, r = .ok a → g.size = f.size + n := by
  rcases h with h | h
  · exact h.ensures.mono fun _ _ hr => hr.2
  · intro r g hr
    cases h.1.symm.trans hr

theorem and_ensures (h : Fits n op f P) (hQ : Ensures op f Q) :
    Fits n op f fun r g => P r g ∧ Q r g :=
  h.imp_left fun h => (h.and_ensures hQ).mono fun _ _ hr => ⟨⟨hr.1.1, hr.2⟩, hr.1.2⟩

/-- As long as there are handles for all elements, no fault is met. -/
theorem lands (h : Fits n op f Q) (hroom : f.size + n ≤ handleCount) : Lands op f Q := by
  rcases h with h | h
  · exact h.mono fun _ _ hr => hr.1
  · exact absurd h.2 (Nat.not_lt.2 hroom)

theorem bind (h : Fits n op f P) (hok : ∀ a g, P (.ok a) g → Fits m (next a) g R)
    (herror : ∀ why g, P (.error why) g → R (.error why) g) :
    Fits (n + m) (op >>= next) f R := by
  rcases h with h | h
  · obtain ⟨out, g, hop, hP, hsize⟩ := h
    cases out with
    | error why =>
      refine .inl ⟨.error why, g, perform_bind_error hop, herror why g hP, ?_⟩
      rintro _ ⟨⟩
    | ok a =>
      have hsize := hsize a rfl
      rcases hok a g hP with hnext | hnext
      · obtain ⟨r, g', hr, hR, hsize'⟩ := hnext
        refine .inl ⟨r, g', (perform_bind_ok hop).trans hr, hR, fun b hb => ?_⟩
        rw [hsize' b hb, hsize, Nat.add_assoc]
      · refine .inr ⟨(perform_bind_ok hop).trans hnext.1, ?_⟩
        rw [← Nat.add_assoc, ← hsize]
        exact hnext.2
  · refine .inr ⟨?_, Nat.lt_of_lt_of_le h.2 (by omega)⟩
    rw [perform_bind, h.1]
    rfl

theorem report (h : Fits n op f P) (k : α → β) :
    Fits n (op >>= fun a => Pure.pure (k a)) f fun _ _ => True := by
  rw [← Nat.add_zero n]
  exact h.bind (fun _ _ _ => Fits.pure trivial) fun _ _ _ => trivial

theorem bind_look {view : Forest → Except Fault α} {a : α} (ha : view f = .ok a)
    (h : Fits n (next a) f R) : Fits n (Edit.look view >>= next) f R := by
  have hlook : (Edit.look view >>= next).perform f = (next a).perform f :=
    perform_bind_ok (perform_look_ok ha)
  unfold Fits Overflows Lands at h ⊢
  rwa [hlook]

theorem bind_change {c : Forest → Except Fault Forest} {next : Unit → Edit β} (hc : c f = .ok g)
    (hsize : g.size = f.size) (h : Fits n (next ()) g R) :
    Fits n (Edit.change c >>= next) f R := by
  have hchange : (Edit.change c >>= next).perform f = (next ()).perform g :=
    perform_bind_ok (perform_change_ok hc)
  unfold Fits Overflows Lands at h ⊢
  rwa [hchange, ← hsize]

theorem guard {c : Prop} [Decidable c] {why : Refusal} {rest : Edit β}
    (hrefuse : c → R (.error why) f) (hpass : ¬c → Fits n rest f R) :
    Fits n (if c then Edit.refuse why >>= fun _ : Unit => rest else rest) f R := by
  split
  · next hc =>
    refine .inl ⟨.error why, f, perform_bind_error (perform_refuse why f), hrefuse hc, ?_⟩
    rintro _ ⟨⟩
  · next hc => exact hpass hc

end Fits

/-- An edit leads from forests with a property to such forests. -/
def Keeps (I : Forest → Prop) (op : Edit α) : Prop :=
  ∀ f, I f → Ensures op f fun _ g => I g

namespace Keeps

variable {I : Forest → Prop} {op : Edit α} {next : α → Edit β}

theorem pure (a : α) : Keeps I (pure a : Edit α) :=
  fun _ hf => Ensures.pure hf

theorem refuse (why : Refusal) : Keeps I (refuse why : Edit α) :=
  fun _ hf => Ensures.refuse hf

theorem look (view : Forest → Except Fault α) : Keeps I (look view) :=
  fun _ hf => Ensures.look fun _ _ => hf

theorem bind (h : Keeps I op) (hnext : ∀ a, Keeps I (next a)) : Keeps I (op >>= next) :=
  fun f hf => (h f hf).bind (fun a g hg => hnext a g hg) fun _ _ hg => hg

theorem tryCatch {handle : Refusal → Edit α} (h : Keeps I op)
    (hhandle : ∀ why, Keeps I (handle why)) : Keeps I (tryCatch op handle) :=
  fun f hf => (h f hf).tryCatch (fun _ _ hg => hg) fun why g hg => hhandle why g hg

end Keeps

/-- From `f` and from `g` an edit meets the same fault, or it has the same result, and the forests
that it leads to are related. -/
def Follows (op : Edit α) (f g : Forest) (Q : Except Refusal α → Forest → Forest → Prop) : Prop :=
  (∃ r f' g', op.perform f = .ok (r, f') ∧ op.perform g = .ok (r, g') ∧ Q r f' g') ∨
    ∃ why, op.perform f = .error why ∧ op.perform g = .error why

namespace Follows

variable {op : Edit α} {next : α → Edit β} {P Q : Except Refusal α → Forest → Forest → Prop}
  {R : Except Refusal β → Forest → Forest → Prop} {f' g' : Forest}

theorem intro {r : Except Refusal α} (hf : op.perform f = .ok (r, f'))
    (hg : op.perform g = .ok (r, g')) (h : Q r f' g') : Follows op f g Q :=
  .inl ⟨r, f', g', hf, hg, h⟩

theorem exists_of_ok (h : Follows op f g Q) {r : Except Refusal α}
    (hf : op.perform f = .ok (r, f')) : ∃ g', op.perform g = .ok (r, g') ∧ Q r f' g' := by
  rcases h with ⟨r', f₁, g', hf', hg, hQ⟩ | ⟨why, hwhy, -⟩
  · cases hf.symm.trans hf'
    exact ⟨g', hg, hQ⟩
  · cases hf.symm.trans hwhy

theorem error_of_error (h : Follows op f g Q) {why : Fault} (hf : op.perform f = .error why) :
    op.perform g = .error why := by
  rcases h with ⟨r, f', g', hf', -⟩ | ⟨why', hwhy, hg⟩
  · cases hf.symm.trans hf'
  · cases hf.symm.trans hwhy
    exact hg

theorem mono (h : Follows op f g P) (hQ : ∀ r f' g', P r f' g' → Q r f' g') :
    Follows op f g Q := by
  rcases h with ⟨r, f', g', hf, hg, hP⟩ | hfault
  · exact intro hf hg (hQ r f' g' hP)
  · exact .inr hfault

theorem pure {a : α} (h : Q (.ok a) f g) : Follows (pure a) f g Q :=
  intro (perform_pure a f) (perform_pure a g) h

theorem refuse {why : Refusal} (h : Q (.error why) f g) : Follows (refuse why) f g Q :=
  intro (perform_refuse why f) (perform_refuse why g) h

theorem change {c : Forest → Except Fault Forest} {Q : Except Refusal Unit → Forest → Forest → Prop}
    (hf : c f = .ok f') (hg : c g = .ok g') (h : Q (.ok ()) f' g') : Follows (change c) f g Q :=
  intro (perform_change_ok hf) (perform_change_ok hg) h

theorem bind (h : Follows op f g P)
    (hok : ∀ a f' g', op.perform f = .ok (.ok a, f') → P (.ok a) f' g' →
      Follows (next a) f' g' R)
    (herror : ∀ why f' g', P (.error why) f' g' → R (.error why) f' g') :
    Follows (op >>= next) f g R := by
  rcases h with ⟨r, f', g', hf, hg, hP⟩ | ⟨why, hf, hg⟩
  · cases r with
    | error why => exact intro (perform_bind_error hf) (perform_bind_error hg) (herror why f' g' hP)
    | ok a =>
      have hnext := hok a f' g' hf hP
      unfold Follows at hnext ⊢
      rwa [perform_bind_ok hf, perform_bind_ok hg]
  · refine .inr ⟨why, ?_, ?_⟩
    · rw [perform_bind, hf]
      rfl
    · rw [perform_bind, hg]
      rfl

theorem tryCatch {handle : Refusal → Edit α} (h : Follows op f g P)
    (hok : ∀ a f' g', P (.ok a) f' g' → Q (.ok a) f' g')
    (herror : ∀ why f' g', op.perform f = .ok (.error why, f') → P (.error why) f' g' →
      Follows (handle why) f' g' Q) :
    Follows (tryCatch op handle) f g Q := by
  rcases h with ⟨r, f', g', hf, hg, hP⟩ | ⟨why, hf, hg⟩
  · cases r with
    | ok a =>
      refine .inl ⟨.ok a, f', g', ?_, ?_, hok a f' g' hP⟩
      · rw [perform_tryCatch, hf, ok_bind]
      · rw [perform_tryCatch, hg, ok_bind]
    | error why =>
      have hhandle := herror why f' g' hf hP
      unfold Follows at hhandle ⊢
      rwa [perform_tryCatch, perform_tryCatch, hf, hg, ok_bind, ok_bind]
  · refine .inr ⟨why, ?_, ?_⟩
    · rw [perform_tryCatch, hf]
      rfl
    · rw [perform_tryCatch, hg]
      rfl

theorem bind_look {view : Forest → Except Fault α} (hview : view g = view f)
    (h : ∀ a, view f = .ok a → Follows (next a) f g R) :
    Follows (Edit.look view >>= next) f g R := by
  cases ha : view f with
  | ok a =>
    have hnext := h a ha
    unfold Follows at hnext ⊢
    rwa [perform_bind_ok (perform_look_ok ha), perform_bind_ok (perform_look_ok (hview.trans ha))]
  | error why =>
    refine .inr ⟨why, ?_, ?_⟩
    · rw [perform_bind, perform_look, ha]
      rfl
    · rw [perform_bind, perform_look, hview, ha]
      rfl

theorem guard {c : Prop} [Decidable c] {why : Refusal} {rest : Edit β}
    (hrefuse : c → R (.error why) f g) (hpass : ¬c → Follows rest f g R) :
    Follows (if c then Edit.refuse why >>= fun _ : Unit => rest else rest) f g R := by
  split
  · next hc =>
    exact intro (perform_bind_error (perform_refuse why f))
      (perform_bind_error (perform_refuse why g)) (hrefuse hc)
  · next hc => exact hpass hc

end Follows

end InstanceTree.Edit
