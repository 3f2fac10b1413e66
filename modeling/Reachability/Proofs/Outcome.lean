import Mathlib.Data.List.Forall2

/-!
# Outcome — runs of steps that may fail

When a run of steps succeeds, and what its success says about each of them.
-/

namespace Except
variable {ε α β : Type}

/-- Two steps succeed if the first does and then the second. -/
theorem bind_eq_ok_iff {x : Except ε α} {f : α → Except ε β} {b : β} :
    x >>= f = .ok b ↔ ∃ a, x = .ok a ∧ f a = .ok b := by
  cases x <;> simp [bind, Except.bind]

/-- A step changes nothing about the success of the one before it. -/
theorem map_eq_ok_iff {x : Except ε α} {f : α → β} {b : β} :
    f <$> x = .ok b ↔ ∃ a, x = .ok a ∧ f a = b := by
  cases x <;> simp [Functor.map, Except.map]

/-- A step that yields nothing is passed by its success only. -/
theorem seq_eq_ok_iff {x : Except ε Unit} {y : Except ε β} {b : β} :
    (x >>= fun _ => y) = .ok b ↔ x = .ok () ∧ y = .ok b := by
  rw [bind_eq_ok_iff]
  exact ⟨fun ⟨(), hx, hy⟩ => ⟨hx, hy⟩, fun ⟨hx, hy⟩ => ⟨(), hx, hy⟩⟩

/-- A step on each of a list is one on the first and one on each of the others. -/
theorem mapM_cons_eq_ok_iff {f : α → Except ε β} {a : α} {as : List α} {bs : List β} :
    (a :: as).mapM f = .ok bs ↔ ∃ b rest, f a = .ok b ∧ as.mapM f = .ok rest ∧ bs = b :: rest := by
  simp only [List.mapM_cons, bind_eq_ok_iff, pure, Except.pure, ok.injEq]
  exact ⟨fun ⟨b, hb, rest, hrest, h⟩ => ⟨b, rest, hb, hrest, h.symm⟩,
    fun ⟨b, rest, hb, hrest, h⟩ => ⟨b, hb, rest, hrest, h.symm⟩⟩

/-- What a step on each of a list yields comes from that list. -/
theorem exists_of_mapM_eq_ok {f : α → Except ε β} {as : List α} {bs : List β}
    (h : as.mapM f = .ok bs) {b : β} (hb : b ∈ bs) : ∃ a ∈ as, f a = .ok b := by
  induction as generalizing bs with
  | nil =>
    cases h
    cases hb
  | cons a as ih =>
    obtain ⟨c, cs, hc, hcs, rfl⟩ := mapM_cons_eq_ok_iff.mp h
    rcases List.mem_cons.mp hb with rfl | hb
    · exact ⟨a, List.mem_cons_self, hc⟩
    · obtain ⟨a', ha', h⟩ := ih hcs hb
      exact ⟨a', List.mem_cons_of_mem a ha', h⟩

/-- What each of a list yields is among the results. -/
theorem exists_mem_of_mapM_eq_ok {f : α → Except ε β} {as : List α} {bs : List β}
    (h : as.mapM f = .ok bs) {a : α} (ha : a ∈ as) : ∃ b ∈ bs, f a = .ok b := by
  induction as generalizing bs with
  | nil => cases ha
  | cons a' as ih =>
    obtain ⟨c, cs, hc, hcs, rfl⟩ := mapM_cons_eq_ok_iff.mp h
    rcases List.mem_cons.mp ha with rfl | ha
    · exact ⟨c, List.mem_cons_self, hc⟩
    · obtain ⟨b, hb, hab⟩ := ih hcs ha
      exact ⟨b, List.mem_cons_of_mem c hb, hab⟩

/-- A step succeeds on a list exactly if it does on each of its members. -/
theorem exists_mapM_eq_ok_iff {f : α → Except ε β} {as : List α} :
    (∃ bs, as.mapM f = .ok bs) ↔ ∀ a ∈ as, ∃ b, f a = .ok b := by
  constructor
  · rintro ⟨bs, h⟩ a ha
    obtain ⟨b, -, hb⟩ := exists_mem_of_mapM_eq_ok h ha
    exact ⟨b, hb⟩
  · intro h
    induction as with
    | nil => exact ⟨[], rfl⟩
    | cons a as ih =>
      obtain ⟨b, hb⟩ := h a List.mem_cons_self
      obtain ⟨bs, hbs⟩ := ih fun a' ha' => h a' (List.mem_cons_of_mem a ha')
      exact ⟨b :: bs, by rw [List.mapM_cons, hb, hbs]; rfl⟩

/-- A step on each of a list has as many results. -/
theorem length_of_mapM_eq_ok {f : α → Except ε β} {as : List α} {bs : List β}
    (h : as.mapM f = .ok bs) : bs.length = as.length := by
  induction as generalizing bs with
  | nil =>
    cases h
    rfl
  | cons a as ih =>
    obtain ⟨c, cs, hc, hcs, rfl⟩ := mapM_cons_eq_ok_iff.mp h
    rw [List.length_cons, List.length_cons, ih hcs]

/-- The results of a step on each of a list are those of its members, one by one. -/
theorem forall₂_of_mapM_eq_ok {f : α → Except ε β} {as : List α} {bs : List β}
    (h : as.mapM f = .ok bs) : List.Forall₂ (fun a b => a ∈ as ∧ f a = .ok b) as bs := by
  suffices hsteps : List.Forall₂ (fun a b => f a = .ok b) as bs from
    (List.forall₂_and_left as bs).mpr ⟨fun _ ha => ha, hsteps⟩
  induction as generalizing bs with
  | nil =>
    cases h
    exact .nil
  | cons a as ih =>
    obtain ⟨b, rest, hb, hrest, rfl⟩ := mapM_cons_eq_ok_iff.mp h
    exact .cons hb (ih hrest)

/-- A step that undoes another one undoes it on each of a list. -/
theorem mapM_map_eq_ok {f : β → Except ε α} {g : α → β} {as : List α}
    (h : ∀ a ∈ as, f (g a) = .ok a) : (as.map g).mapM f = .ok as := by
  induction as with
  | nil => rfl
  | cons a as ih =>
    rw [List.map_cons, List.mapM_cons, h a List.mem_cons_self,
      ih fun b hb => h b (List.mem_cons_of_mem a hb)]
    rfl

/-- A step that undoes another one, or else fails for a reason in `P`, fails for such a reason on
a list if it fails on one of its members. -/
theorem exists_error_of_mapM_map {f : β → Except ε α} {g : α → β} {P : ε → Prop} {as : List α}
    (h : ∀ a ∈ as, f (g a) = .ok a ∨ ∃ e, P e ∧ f (g a) = .error e)
    (hbad : ∃ a ∈ as, ∃ e, f (g a) = .error e) : ∃ e, P e ∧ (as.map g).mapM f = .error e := by
  induction as with
  | nil =>
    obtain ⟨_, hmem, -⟩ := hbad
    cases hmem
  | cons a as ih =>
    rcases h a List.mem_cons_self with hok | ⟨e, he, herror⟩
    · -- the member that fails is a later one
      obtain ⟨b, hb, e, hbad⟩ := hbad
      have hb : b ∈ as := by
        rcases List.mem_cons.mp hb with rfl | hb
        · rw [hok] at hbad
          cases hbad
        · exact hb
      obtain ⟨e, he, herror⟩ := ih (fun b hb => h b (List.mem_cons_of_mem a hb)) ⟨b, hb, e, hbad⟩
      exact ⟨e, he, by rw [List.map_cons, List.mapM_cons, hok, herror]; rfl⟩
    · exact ⟨e, he, by rw [List.map_cons, List.mapM_cons, herror]; rfl⟩

/-- What holds at the start of a run over a list and passes from what was taken so far to one more
member holds at its end. -/
theorem foldlM_induct {motive : List α → β → Prop} {step : β → α → Except ε β} {as : List α}
    {b b' : β} (hstep : ∀ before, ∀ a ∈ as, ∀ b b', motive before b → step b a = .ok b' →
      motive (before ++ [a]) b')
    (hstart : motive [] b) (h : as.foldlM step b = .ok b') : motive as b' := by
  suffices hrun : ∀ (before : List α) {b : β}, motive before b → as.foldlM step b = .ok b' →
      motive (before ++ as) b' from hrun [] hstart h
  clear hstart h
  induction as with
  | nil =>
    intro before b hb h
    cases h
    rwa [List.append_nil]
  | cons a as ih =>
    intro before b hb h
    rw [List.foldlM_cons] at h
    obtain ⟨mid, hmid, h⟩ := bind_eq_ok_iff.mp h
    have := ih (fun before c hc => hstep before c (List.mem_cons_of_mem a hc)) _
      (hstep before a List.mem_cons_self b mid hb hmid) h
    rwa [List.append_assoc, List.singleton_append] at this

/-- A run over a list fails where one of its steps does. -/
theorem exists_of_foldlM_eq_error {step : β → α → Except ε β} {as : List α} {b : β} {e : ε}
    (h : as.foldlM step b = .error e) : ∃ a ∈ as, ∃ b, step b a = .error e := by
  induction as generalizing b with
  | nil => cases h
  | cons a as ih =>
    rw [List.foldlM_cons] at h
    cases hstep : step b a with
    | error e' =>
      rw [hstep] at h
      cases h
      exact ⟨a, List.mem_cons_self, b, hstep⟩
    | ok mid =>
      rw [hstep] at h
      obtain ⟨a', ha', h⟩ := ih h
      exact ⟨a', List.mem_cons_of_mem a ha', h⟩

/-! ### Steps that fail for few reasons -/

/-- The step succeeds or fails for a reason in `E`. -/
def FailsOnly (E : ε → Prop) (x : Except ε α) : Prop := ∀ e, x = .error e → E e

variable {E : ε → Prop}

theorem failsOnly_ok (a : α) : FailsOnly E (.ok a) := nofun

/-- A step that cannot fail succeeds. -/
theorem FailsOnly.exists_ok {x : Except ε α} (h : FailsOnly (fun _ => False) x) :
    ∃ a, x = .ok a := by
  cases x with
  | ok a => exact ⟨a, rfl⟩
  | error e => exact (h e rfl).elim

theorem FailsOnly.bind {x : Except ε α} {f : α → Except ε β} (h : FailsOnly E x)
    (hf : ∀ a, x = .ok a → FailsOnly E (f a)) : FailsOnly E (x >>= f) := by
  cases x with
  | ok a => exact hf a rfl
  | error e =>
    intro e' he'
    cases he'
    exact h e rfl

theorem FailsOnly.map {x : Except ε α} (h : FailsOnly E x) (f : α → β) : FailsOnly E (f <$> x) := by
  cases x with
  | ok a => exact failsOnly_ok (f a)
  | error e =>
    intro e' he'
    cases he'
    exact h e rfl

theorem failsOnly_anyM {f : α → Except ε Bool} {as : List α} (h : ∀ a ∈ as, FailsOnly E (f a)) :
    FailsOnly E (as.anyM f) := by
  induction as with
  | nil => exact failsOnly_ok false
  | cons a as ih =>
    refine (h a List.mem_cons_self).bind fun b _ => ?_
    cases b with
    | true => exact failsOnly_ok true
    | false => exact ih fun a' ha' => h a' (List.mem_cons_of_mem a ha')

theorem failsOnly_allM {f : α → Except ε Bool} {as : List α} (h : ∀ a ∈ as, FailsOnly E (f a)) :
    FailsOnly E (as.allM f) := by
  induction as with
  | nil => exact failsOnly_ok true
  | cons a as ih =>
    refine (h a List.mem_cons_self).bind fun b _ => ?_
    cases b with
    | true => exact ih fun a' ha' => h a' (List.mem_cons_of_mem a ha')
    | false => exact failsOnly_ok false

/-! ### Answers of yes or no -/

variable {f g : α → Except ε Bool} {as : List α}

theorem allM_eq_true_iff : as.allM f = .ok true ↔ ∀ a ∈ as, f a = .ok true := by
  induction as with
  | nil => simp [List.allM, pure, Except.pure]
  | cons a as ih =>
    rw [List.allM_cons, bind_eq_ok_iff, List.forall_mem_cons, ← ih]
    simp [pure, Except.pure]

/-- A no to all is a no to one of them. -/
theorem exists_of_allM_eq_false (h : as.allM f = .ok false) : ∃ a ∈ as, f a = .ok false := by
  induction as with
  | nil => cases h
  | cons a as ih =>
    rw [List.allM_cons] at h
    obtain ⟨b, hb, h⟩ := bind_eq_ok_iff.mp h
    cases b with
    | true =>
      obtain ⟨a', ha', h⟩ := ih h
      exact ⟨a', List.mem_cons_of_mem a ha', h⟩
    | false => exact ⟨a, List.mem_cons_self, hb⟩

/-- A yes to some is a yes to one of them. -/
theorem exists_of_anyM_eq_true (h : as.anyM f = .ok true) : ∃ a ∈ as, f a = .ok true := by
  induction as with
  | nil => cases h
  | cons a as ih =>
    rw [List.anyM_cons] at h
    obtain ⟨b, hb, h⟩ := bind_eq_ok_iff.mp h
    cases b with
    | true => exact ⟨a, List.mem_cons_self, hb⟩
    | false =>
      obtain ⟨a', ha', h⟩ := ih h
      exact ⟨a', List.mem_cons_of_mem a ha', h⟩

theorem anyM_eq_false_iff : as.anyM f = .ok false ↔ ∀ a ∈ as, f a = .ok false := by
  induction as with
  | nil => simp [List.anyM, pure, Except.pure]
  | cons a as ih =>
    rw [List.anyM_cons, bind_eq_ok_iff, List.forall_mem_cons, ← ih]
    simp [pure, Except.pure]

/-! ### Two runs -/

/-- What two steps yield is related by `r`, if both succeed. -/
def Relates (r : α → β → Prop) (x : Except ε α) (y : Except ε β) : Prop :=
  ∀ a b, x = .ok a → y = .ok b → r a b

section
variable {α' β' : Type} {r : α → α' → Prop} {s : β → β' → Prop}

theorem relates_ok {a : α} {a' : α'} (h : r a a') :
    Relates r (.ok a : Except ε α) (.ok a' : Except ε α') := by
  rintro _ _ ⟨⟩ ⟨⟩
  exact h

theorem relates_refl {r : α → α → Prop} (h : ∀ a, r a a) (x : Except ε α) : Relates r x x := by
  intro a b ha hb
  cases ha.symm.trans hb
  exact h a

theorem Relates.bind {x : Except ε α} {y : Except ε α'} {f : α → Except ε β}
    {g : α' → Except ε β'} (h : Relates r x y) (hfg : ∀ a b, r a b → Relates s (f a) (g b)) :
    Relates s (x >>= f) (y >>= g) := by
  intro c d hc hd
  obtain ⟨a, ha, hc⟩ := bind_eq_ok_iff.mp hc
  obtain ⟨b, hb, hd⟩ := bind_eq_ok_iff.mp hd
  exact hfg a b (h a b ha hb) c d hc hd

/-- Runs that start with the same step are related by how they go on. -/
theorem relates_bind {x : Except ε α} {f g : α → Except ε β} {s : β → β → Prop}
    (h : ∀ a, Relates s (f a) (g a)) : Relates s (x >>= f) (x >>= g) := by
  cases x with
  | ok a => exact h a
  | error e => exact nofun

theorem Relates.map {x : Except ε α} {y : Except ε α'} {f : α → β} {g : α' → β'}
    (h : Relates r x y) (hfg : ∀ a b, r a b → s (f a) (g b)) :
    Relates s (f <$> x) (g <$> y) := by
  intro c d hc hd
  obtain ⟨a, ha, rfl⟩ := map_eq_ok_iff.mp hc
  obtain ⟨b, hb, rfl⟩ := map_eq_ok_iff.mp hd
  exact hfg a b (h a b ha hb)

/-- Runs over a list are related if their steps are. -/
theorem relates_foldlM {r : α → α' → Prop} {as : List β} {f : α → β → Except ε α}
    {g : α' → β → Except ε α'} (hstep : ∀ b ∈ as, ∀ a a', r a a' → Relates r (f a b) (g a' b))
    {a : α} {a' : α'} (h : r a a') : Relates r (as.foldlM f a) (as.foldlM g a') := by
  induction as generalizing a a' with
  | nil => exact relates_ok h
  | cons b as ih =>
    rw [List.foldlM_cons, List.foldlM_cons]
    exact (hstep b List.mem_cons_self a a' h).bind fun _ _ h' =>
      ih (fun c hc => hstep c (List.mem_cons_of_mem b hc)) h'

end

/-- An answer is related to a later one by `≤` unless a yes turns into a no. -/
theorem relates_le_iff {x y : Except ε Bool} :
    Relates (· ≤ ·) x y ↔ (x = .ok true → y ≠ .ok false) := by
  constructor
  · intro h hyes hno
    exact absurd (h true false hyes hno) (by decide)
  · intro h yes no hyes hno
    cases yes with
    | false => exact Bool.false_le no
    | true =>
      cases no with
      | false => exact (h hyes hno).elim
      | true => exact Bool.le_refl true

/-- Two runs over a list may stop at different members. -/
theorem relates_allM (h : ∀ a ∈ as, Relates (· ≤ ·) (f a) (g a)) :
    Relates (· ≤ ·) (as.allM f) (as.allM g) := by
  refine relates_le_iff.mpr fun hyes hno => ?_
  obtain ⟨a, ha, hno⟩ := exists_of_allM_eq_false hno
  exact relates_le_iff.mp (h a ha) (allM_eq_true_iff.mp hyes a ha) hno

theorem relates_anyM (h : ∀ a ∈ as, Relates (· ≤ ·) (f a) (g a)) :
    Relates (· ≤ ·) (as.anyM f) (as.anyM g) := by
  refine relates_le_iff.mpr fun hyes hno => ?_
  obtain ⟨a, ha, hyes⟩ := exists_of_anyM_eq_true hyes
  exact relates_le_iff.mp (h a ha) hyes (anyM_eq_false_iff.mp hno a ha)

/-! ### Steps that read less -/

/-- Whatever the first step yields, the second one yields too. -/
def Settles (x y : Except ε α) : Prop := ∀ a, x = .ok a → y = .ok a

theorem settles_refl (x : Except ε α) : x.Settles x := fun _ h => h

theorem Settles.bind {x y : Except ε α} {f g : α → Except ε β} (h : x.Settles y)
    (hfg : ∀ a, (f a).Settles (g a)) : (x >>= f).Settles (y >>= g) := by
  intro b hb
  obtain ⟨a, ha, hb⟩ := bind_eq_ok_iff.mp hb
  exact bind_eq_ok_iff.mpr ⟨a, h a ha, hfg a b hb⟩

theorem Settles.map {x y : Except ε α} (h : x.Settles y) (f : α → β) :
    (f <$> x).Settles (f <$> y) := by
  intro b hb
  obtain ⟨a, ha, hab⟩ := map_eq_ok_iff.mp hb
  exact map_eq_ok_iff.mpr ⟨a, h a ha, hab⟩

/-- Asking up to the first no answers what asking everyone does. -/
theorem settles_allM (h : ∀ a ∈ as, (f a).Settles (g a)) :
    ((·.all id) <$> as.mapM f).Settles (as.allM g) := by
  induction as with
  | nil => exact settles_refl _
  | cons a as ih =>
    intro value hvalue
    obtain ⟨answers, hanswers, rfl⟩ := map_eq_ok_iff.mp hvalue
    obtain ⟨first, others, hfirst, hothers, rfl⟩ := mapM_cons_eq_ok_iff.mp hanswers
    have hrest : as.allM g = .ok (others.all id) :=
      ih (fun b hb => h b (List.mem_cons_of_mem a hb)) _ (map_eq_ok_iff.mpr ⟨others, hothers, rfl⟩)
    rw [List.allM_cons, h a List.mem_cons_self first hfirst, hrest]
    cases first <;> rfl

/-- Asking up to the first yes answers what asking everyone does. -/
theorem settles_anyM (h : ∀ a ∈ as, (f a).Settles (g a)) :
    ((·.any id) <$> as.mapM f).Settles (as.anyM g) := by
  induction as with
  | nil => exact settles_refl _
  | cons a as ih =>
    intro value hvalue
    obtain ⟨answers, hanswers, rfl⟩ := map_eq_ok_iff.mp hvalue
    obtain ⟨first, others, hfirst, hothers, rfl⟩ := mapM_cons_eq_ok_iff.mp hanswers
    have hrest : as.anyM g = .ok (others.any id) :=
      ih (fun b hb => h b (List.mem_cons_of_mem a hb)) _ (map_eq_ok_iff.mpr ⟨others, hothers, rfl⟩)
    rw [List.anyM_cons, h a List.mem_cons_self first hfirst, hrest]
    cases first <;> rfl

/-! ### Steps that agree -/

theorem bind_congr_of_ok {x : Except ε α} {f g : α → Except ε β}
    (h : ∀ a, x = .ok a → f a = g a) : x >>= f = x >>= g := by
  cases x with
  | ok a => exact h a rfl
  | error e => rfl

theorem mapM_congr {f g : α → Except ε β} {as : List α} (h : ∀ a ∈ as, f a = g a) :
    as.mapM f = as.mapM g := by
  induction as with
  | nil => rfl
  | cons a as ih =>
    rw [List.mapM_cons, List.mapM_cons, h a List.mem_cons_self,
      ih fun a' ha' => h a' (List.mem_cons_of_mem a ha')]

theorem anyM_congr {f g : α → Except ε Bool} {as : List α} (h : ∀ a ∈ as, f a = g a) :
    as.anyM f = as.anyM g := by
  induction as with
  | nil => rfl
  | cons a as ih =>
    rw [List.anyM_cons, List.anyM_cons, h a List.mem_cons_self,
      ih fun a' ha' => h a' (List.mem_cons_of_mem a ha')]

theorem allM_congr {f g : α → Except ε Bool} {as : List α} (h : ∀ a ∈ as, f a = g a) :
    as.allM f = as.allM g := by
  induction as with
  | nil => rfl
  | cons a as ih =>
    rw [List.allM_cons, List.allM_cons, h a List.mem_cons_self,
      ih fun a' ha' => h a' (List.mem_cons_of_mem a ha')]

theorem foldlM_congr {f g : β → α → Except ε β} {as : List α}
    (h : ∀ a ∈ as, ∀ b, f b a = g b a) (b : β) : as.foldlM f b = as.foldlM g b := by
  induction as generalizing b with
  | nil => rfl
  | cons a as ih =>
    rw [List.foldlM_cons, List.foldlM_cons, h a List.mem_cons_self]
    exact bind_congr_of_ok fun b' _ => ih (fun a' ha' => h a' (List.mem_cons_of_mem a ha')) b'

/-! ### Runs that match -/

/-- Two runs fail for the same reason, or both succeed and yield what `r` relates. -/
inductive Matches {α β : Type} (r : α → β → Prop) : Except ε α → Except ε β → Prop
  | ok {a : α} {b : β} : r a b → Matches r (.ok a) (.ok b)
  | error (e : ε) : Matches r (.error e) (.error e)

section
variable {α' β' : Type} {r : α → α' → Prop} {s : β → β' → Prop}

theorem Matches.imp {r' : α → α' → Prop} {x : Except ε α} {y : Except ε α'} (h : Matches r x y)
    (hr : ∀ a b, r a b → r' a b) : Matches r' x y := by
  cases h with
  | ok hab => exact .ok (hr _ _ hab)
  | error e => exact .error e

theorem Matches.bind {x : Except ε α} {y : Except ε α'} {f : α → Except ε β}
    {g : α' → Except ε β'} (h : Matches r x y) (hfg : ∀ a b, r a b → Matches s (f a) (g b)) :
    Matches s (x >>= f) (y >>= g) := by
  cases h with
  | ok hab => exact hfg _ _ hab
  | error e => exact .error e

/-- Runs that start with the same step match if they go on so. -/
theorem matches_bind {x : Except ε α} {f : α → Except ε β} {g : α → Except ε β'}
    (h : ∀ a, Matches s (f a) (g a)) : Matches s (x >>= f) (x >>= g) := by
  cases x with
  | ok a => exact h a
  | error e => exact .error e

/-- Where steps match, what goes on alike after both yields the same. -/
theorem Matches.bind_eq {x : Except ε α} {y : Except ε α'} {f : α → Except ε β}
    {g : α' → Except ε β} (h : Matches r x y) (hfg : ∀ a b, r a b → g b = f a) :
    y >>= g = x >>= f := by
  cases h with
  | ok hab => exact hfg _ _ hab
  | error e => rfl

/-- Runs over lists match if their steps do. -/
theorem matches_mapM {f : α → Except ε β} {g : α' → Except ε β'} {as : List α} {bs : List α'}
    (h : List.Forall₂ r as bs) (hfg : ∀ a b, r a b → Matches s (f a) (g b)) :
    Matches (List.Forall₂ s) (as.mapM f) (bs.mapM g) := by
  induction h with
  | nil => exact .ok .nil
  | cons hab _ ih =>
    rw [List.mapM_cons, List.mapM_cons]
    refine (hfg _ _ hab).bind fun c d hcd => ih.bind fun cs ds hrest => ?_
    exact .ok (.cons hcd hrest)

end

end Except
