import MetaEditor.Lib.StdString

/-!
# Readers of bytes

A reader takes bytes from the front of its input or fails. `Reads p bs a`: on `bs` followed by anything,
`p` returns `a` and leaves what follows. The rules put readings together in the order of the bytes; an
encoder is right when its output is read back as the value it was made from.

A reader is `Stable` when it looks at the end of the input only to come short: then no proper prefix of what it
reads is read as anything. The same rules carry what holds of every value that it returns. `Extends` compares two
readers that differ in their fuel.
-/

namespace MetaEditor.Lib

variable {ε α β : Type}

abbrev Reader (ε α : Type) := StateT Bytes (Except ε) α

namespace Reader

/-- The next `n` bytes, or the error `short`. -/
def take (short : ε) (n : Nat) : Reader ε Bytes := fun input =>
  if n ≤ input.length then .ok (input.take n, input.drop n) else .error short

/-- The same reader `n` times. -/
def times : Nat → Reader ε α → Reader ε (List α)
  | 0, _ => pure []
  | n + 1, p => do
    let a ← p
    let as ← times n p
    return a :: as

end Reader

def Reads (p : Reader ε α) (bs : Bytes) (a : α) : Prop := ∀ rest, p (bs ++ rest) = .ok (a, rest)

theorem reads_pure (a : α) : Reads (pure a : Reader ε α) [] a := fun _ => rfl

theorem reads_take {short : ε} {n : Nat} {bs : Bytes} (h : bs.length = n) : Reads (Reader.take short n) bs bs := by
  intro rest
  subst h
  simp [Reader.take]

theorem Reads.bind {p : Reader ε α} {f : α → Reader ε β} {bs bs' : Bytes} {a : α} {b : β} (h : Reads p bs a)
    (h' : Reads (f a) bs' b) : Reads (p >>= f) (bs ++ bs') b := by
  intro rest
  show (p (bs ++ bs' ++ rest) >>= fun r => f r.1 r.2) = _
  rw [List.append_assoc, h]
  exact h' rest

/-- A last step that only computes. -/
theorem Reads.bind_pure {p : Reader ε α} {f : α → Reader ε β} {bs : Bytes} {a : α} {b : β} (h : Reads p bs a)
    (hf : f a = pure b) : Reads (p >>= f) bs b := by
  have hlast : Reads (f a) [] b := by
    rw [hf]
    exact reads_pure b
  have hbind := h.bind hlast
  rwa [List.append_nil] at hbind

/-! ### The end of the input -/

/-- What the reader returns meets `P`. More input is left as it is, and changes nothing else, unless the reader came
short. -/
def Stable (short : ε) (P : α → Prop) (p : Reader ε α) : Prop := ∀ input more : Bytes,
  (∀ a rest, p input = .ok (a, rest) → P a ∧ p (input ++ more) = .ok (a, rest ++ more)) ∧
    ∀ e, p input = .error e → e ≠ short → p (input ++ more) = .error e

section Stable

variable {short : ε} {P : α → Prop} {Q : β → Prop}

theorem stable_pure {a : α} (h : P a) : Stable short P (pure a) := by
  refine fun input more => ⟨fun a' rest hok => ?_, fun e he => nomatch he⟩
  cases hok
  exact ⟨h, rfl⟩

theorem stable_throw (e : ε) : Stable short P (throw e) := by
  refine fun input more => ⟨fun a rest hok => (nomatch hok), fun e' he _ => ?_⟩
  cases he
  rfl

theorem stable_take (n : Nat) : Stable short (fun bs => bs.length = n) (Reader.take short n) := by
  intro input more
  unfold Reader.take
  split_ifs with hle hmore hmore
  · refine ⟨fun a rest hok => ?_, fun e he => nomatch he⟩
    cases hok
    rw [List.take_append_of_le_length hle, List.drop_append_of_le_length hle]
    exact ⟨List.length_take_of_le hle, rfl⟩
  · exact absurd (hle.trans (by rw [List.length_append]; exact Nat.le_add_right _ _)) hmore
  all_goals
    refine ⟨fun a rest hok => (nomatch hok), fun e he hne => ?_⟩
    cases he
    exact absurd rfl hne

theorem Stable.bind {p : Reader ε α} {f : α → Reader ε β} (h : Stable short P p) (h' : ∀ a, P a → Stable short Q (f a)) :
    Stable short Q (p >>= f) := by
  intro input more
  obtain ⟨hok, herror⟩ := h input more
  show (∀ b rest, (p input >>= fun r => f r.1 r.2) = _ → _ ∧ (p (input ++ more) >>= fun r => f r.1 r.2) = _) ∧
    ∀ e, (p input >>= fun r => f r.1 r.2) = _ → _ → (p (input ++ more) >>= fun r => f r.1 r.2) = _
  cases hp : p input with
  | error e =>
    refine ⟨fun b rest hb => (nomatch hb), fun e' he hne => ?_⟩
    cases he
    rw [herror e hp hne]
    rfl
  | ok r =>
    obtain ⟨ha, hmore⟩ := hok r.1 r.2 hp
    rw [hmore]
    exact h' r.1 ha r.2 more

/-- A last step that only computes. -/
theorem Stable.map {p : Reader ε α} (g : α → β) (h : Stable short P p) (hg : ∀ a, P a → Q (g a)) :
    Stable short Q (p >>= fun a => pure (g a)) := h.bind fun a ha => stable_pure (hg a ha)

theorem Stable.mono {P' : α → Prop} {p : Reader ε α} (h : Stable short P p) (hP : ∀ a, P a → P' a) : Stable short P' p := by
  intro input more
  obtain ⟨hok, herror⟩ := h input more
  exact ⟨fun a rest hp => ⟨hP a (hok a rest hp).1, (hok a rest hp).2⟩, herror⟩

theorem stable_times {p : Reader ε α} (h : Stable short P p) (n : Nat) :
    Stable short (fun as => as.length = n ∧ ∀ a ∈ as, P a) (Reader.times n p) := by
  induction n with
  | zero => exact stable_pure ⟨rfl, by simp⟩
  | succ n ih =>
    refine h.bind fun a ha => ih.map (a :: ·) fun as ⟨hlength, has⟩ => ⟨congrArg (· + 1) hlength, ?_⟩
    exact List.forall_mem_cons.mpr ⟨ha, has⟩

/-- Of what a stable reader reads, a proper prefix comes short. -/
theorem Stable.of_prefix {p : Reader ε α} (h : Stable short P p) {bs : Bytes} {a : α} (hreads : Reads p bs a)
    {input : Bytes} (hcut : input <+: bs) (hne : input ≠ bs) : p input = .error short := by
  obtain ⟨more, rfl⟩ := hcut
  obtain ⟨hok, herror⟩ := h input more
  have hall := hreads []
  rw [List.append_nil] at hall
  cases hp : p input with
  | ok r =>
    have hmore := (hok r.1 r.2 hp).2.symm.trans hall
    simp only [Except.ok.injEq, Prod.mk.injEq, List.append_eq_nil_iff] at hmore
    exact absurd (by rw [hmore.2.2, List.append_nil]) hne
  | error e =>
    by_contra hshort
    rw [herror e hp fun heq => hshort (congrArg Except.error heq)] at hall
    cases hall

end Stable

/-! ### Fuel -/

/-- Where `p` does not run out of fuel, `q` does the same. -/
def Extends (out : ε) (p q : Reader ε α) : Prop := ∀ input, p input ≠ .error out → q input = p input

section Extends

variable {out : ε}

theorem extends_refl (p : Reader ε α) : Extends out p p := fun _ _ => rfl

theorem extends_throw (q : Reader ε α) : Extends out (throw out) q := fun _ h => absurd rfl h

theorem Extends.bind {p q : Reader ε α} {f g : α → Reader ε β} (h : Extends out p q) (h' : ∀ a, Extends out (f a) (g a)) :
    Extends out (p >>= f) (q >>= g) := by
  intro input hne
  change (p input >>= fun r => f r.1 r.2) ≠ _ at hne
  show (q input >>= fun r => g r.1 r.2) = (p input >>= fun r => f r.1 r.2)
  cases hp : p input with
  | error e =>
    have hpne : p input ≠ .error out := by
      intro hout
      rw [hout] at hne
      exact hne rfl
    rw [h input hpne, hp]
    rfl
  | ok r =>
    rw [hp] at hne
    rw [h input (by rw [hp]; exact nofun), hp]
    exact h' r.1 r.2 hne

theorem extends_times {p q : Reader ε α} (h : Extends out p q) (n : Nat) :
    Extends out (Reader.times n p) (Reader.times n q) := by
  induction n with
  | zero => exact extends_refl _
  | succ n ih => exact h.bind fun a => ih.bind fun as => extends_refl _

end Extends

end MetaEditor.Lib
