import Diglot.Proofs.Parser.Reaches

namespace Diglot

theorem Token.kind_of_is {token : Token} {kind : TokenKind} {lexeme : String}
    (h : token.is kind lexeme = true) : token.kind = kind :=
  eq_of_beq (Bool.and_eq_true_iff.mp h).1

namespace Parser

open TokenStream

variable {α : Type} {p : Parser α} {s : TokenStream}

theorem exists_of_bind_run {β : Type} {f : α → Parser β} {t : TokenStream} {b : β}
    (h : (p >>= f) s = .ok (b, t)) : ∃ a u, p s = .ok (a, u) ∧ f a u = .ok (b, t) := by
  rw [bind_run] at h
  cases hp : p s with
  | error failure =>
      rw [hp] at h
      cases h
  | ok found =>
      rw [hp] at h
      exact ⟨found.1, found.2, rfl, h⟩

theorem exists_of_run' {a : α} (h : StateT.run' p s = .ok a) : ∃ t, p s = .ok (a, t) := by
  unfold StateT.run' at h
  cases hp : p s with
  | error failure =>
      rw [hp] at h
      cases h
  | ok found =>
      rw [hp] at h
      cases h
      exact ⟨found.2, rfl⟩

-- All values that a reader finds have a property.
def Gives {α : Type} (P : α → Prop) (p : Parser α) : Prop :=
  ∀ s a t, p s = .ok (a, t) → P a

namespace Gives

variable {α β : Type} {P : α → Prop} {p q : Parser α} {first : Parser β} {f : β → Parser α}

theorem pure {a : α} (h : P a) : Gives P (Pure.pure a) := by
  rintro s found t heq
  cases heq
  exact h

theorem throw (failure : Failure) : Gives P (MonadExcept.throw failure) := nofun

-- Goes on with what a reader has found.
theorem found {Q : β → Prop} (hfirst : Gives Q first) (h : ∀ b, Q b → Gives P (f b)) :
    Gives P (first >>= f) := by
  rintro s a t heq
  obtain ⟨b, u, hb, hfound⟩ := exists_of_bind_run heq
  exact h b (hfirst s b u hb) u a t hfound

-- Goes on behind a reader, whatever that has found.
theorem next (h : ∀ b, Gives P (f b)) : Gives P (first >>= f) :=
  .found (fun _ _ _ _ => trivial) fun b _ => h b

theorem ite {c : Prop} [Decidable c] (hp : Gives P p) (hq : Gives P q) :
    Gives P (if c then p else q) := by
  by_cases h : c
  · simpa only [if_pos h] using hp
  · simpa only [if_neg h] using hq

end Gives

-- The notation and the tokens that readers are run on, and the failures that only it has.
structure Setting where
  dialect : Dialect
  tokens : List Token
  Own : TokenStream → Failure → Prop

-- What is known of a reader that has found a value: the least number of tokens it has read.

def strict {α : Type} (_ : α) : Nat := 1

def lax {α : Type} (_ : α) : Nat := 0

def onSome {α : Type} (found : Option α) : Nat := found.isSome.toNat

namespace Setting

variable (setting : Setting) {α β γ ω : Type} {least : β → Nat} {R : α → TokenStream → Prop}
  {p q : Parser α} {f g : α → Parser β}

-- A stream over the last of the tokens.
structure Holds (s : TokenStream) : Prop where
  ended : s.Ended
  isSuffix : s.tokens <:+ setting.tokens

-- The place of a token.
def IsPlace (pos : Pos) : Prop := pos ∈ setting.tokens.map (·.pos)

-- A name that a token says.
def IsWord (text : String) : Prop :=
  ∃ token ∈ setting.tokens, token.kind ∈ [.identifier, .keyword] ∧ token.lexeme = text

-- A literal that a token says, or the number by which increments count.
def IsLiteral (literal : TokenKind × String) : Prop :=
  literal = (.number, "1") ∨ ∃ token ∈ setting.tokens, (token.kind, token.lexeme) = literal

-- How a reader fails at a stream.
inductive Fails (s : TokenStream) : Failure → Prop
  | unexpected (expected : String) : Fails s (s.unexpected expected)
  | unbalanced {failure : Failure} (h : s.advance = .error failure) : Fails s failure
  | target {e : Expr} (h : setting.IsPlace e.pos) (htarget : e.isAssignable = false) :
      Fails s ⟨.invalidTarget e.kindName, e.pos⟩
  | own {failure : Failure} (h : setting.Own s failure) : Fails s failure

-- Two outcomes on a stream are the same. A value is found behind at least so many tokens and goes
-- with the stream behind it, and a failure arises at a stream that is reached.
structure Meets (least : α → Nat) (R : α → TokenStream → Prop) (s : TokenStream)
    (x y : Except Failure (α × TokenStream)) : Prop where
  same : x = y
  ok : ∀ {a t}, x = .ok (a, t) → s.Reaches t ∧ t.size + least a ≤ s.size ∧ R a t
  error : ∀ {failure}, x = .error failure → ∃ t, s.Reaches t ∧ setting.Fails t failure

-- Two readers that agree on all streams of so many tokens, and find values with a property. They
-- are one reader with two limits, of which none is reached.
def Agree (n : Nat) (least : α → Nat) (P : α → Prop) (p q : Parser α) : Prop :=
  ∀ s, setting.Holds s → s.size ≤ n → setting.Meets least (fun a _ => P a) s (p s) (q s)

-- Two readers that agree where the current token is known.
def AgreeOn (token : Token) (n : Nat) (least : α → Nat) (P : α → Prop) (p q : Parser α) : Prop :=
  ∀ s, setting.Holds s → s.size ≤ n → s.current = token →
    setting.Meets least (fun a _ => P a) s (p s) (q s)

variable {setting : Setting} {n m : Nat} {s : TokenStream} {token : Token}

theorem Holds.moved {t : TokenStream} (h : setting.Holds s) (hreach : s.Reaches t) :
    setting.Holds t := by
  obtain ⟨hended, passed, hpassed, -⟩ := hreach.passes h.ended
  exact ⟨hended, .trans ⟨passed, hpassed.symm⟩ h.isSuffix⟩

theorem Holds.current_mem (h : setting.Holds s) : s.current ∈ setting.tokens :=
  h.isSuffix.subset (.head _)

theorem isPlace_of_mem (h : token ∈ setting.tokens) : setting.IsPlace token.pos :=
  List.mem_map_of_mem h

theorem isWord_of_mem (h : token ∈ setting.tokens)
    (hkind : token.kind ∈ [.identifier, .keyword]) : setting.IsWord token.lexeme :=
  ⟨token, h, hkind, rfl⟩

theorem Meets.bind {k : α → Nat} {S : β → TokenStream → Prop} (hs : setting.Holds s)
    (hp : setting.Meets k R s (p s) (q s))
    (hf : ∀ a t, p s = .ok (a, t) → s.Reaches t → setting.Holds t → t.size + k a ≤ s.size → R a t →
      setting.Meets (fun b => least b - k a) S t (f a t) (g a t)) :
    setting.Meets least S s ((p >>= f) s) ((q >>= g) s) := by
  rw [bind_run, bind_run, ← hp.same]
  cases hfound : p s with
  | error failure =>
      refine ⟨rfl, nofun, fun heq => ?_⟩
      cases heq
      exact hp.error hfound
  | ok found =>
      obtain ⟨a, t⟩ := found
      obtain ⟨hreach, hsize, ha⟩ := hp.ok hfound
      have hmeets := hf a t hfound hreach (hs.moved hreach) hsize ha
      refine ⟨hmeets.same, fun heq => ?_, fun heq => ?_⟩
      · obtain ⟨hmore, hless, hb⟩ := hmeets.ok heq
        exact ⟨hreach.trans hmore, by omega, hb⟩
      · obtain ⟨u, hmore, hfails⟩ := hmeets.error heq
        exact ⟨u, hreach.trans hmore, hfails⟩

theorem Meets.mono {least more : α → Nat} {S : α → TokenStream → Prop}
    {x y : Except Failure (α × TokenStream)} (h : setting.Meets more R s x y)
    (hle : ∀ a, least a ≤ more a)
    (hRS : ∀ a t, s.Reaches t → t.size + more a ≤ s.size → R a t → S a t) :
    setting.Meets least S s x y := by
  refine ⟨h.same, fun heq => ?_, h.error⟩
  obtain ⟨hreach, hsize, ha⟩ := h.ok heq
  exact ⟨hreach, Nat.le_trans (Nat.add_le_add_left (hle _) _) hsize, hRS _ _ hreach hsize ha⟩

theorem AgreeOn.first {P : α → Prop} {Q : β → Prop}
    (hp : setting.AgreeOn token (n + 1) strict P p q)
    (hf : ∀ a, P a → setting.Agree n (fun b => least b - 1) Q (f a) (g a)) :
    setting.AgreeOn token (n + 1) least Q (p >>= f) (q >>= g) := by
  intro s hs hsize hcurrent
  exact Meets.bind hs (hp s hs hsize hcurrent) fun a t _ _ ht hless ha =>
    hf a ha t ht (Nat.le_of_succ_le_succ (Nat.le_trans hless hsize))

namespace Agree

variable {least : β → Nat} {P P' : α → Prop} {Q : β → Prop} {p q : Parser α} {f g : α → Parser β}
  {more l : α → Nat} {a : α} {k : Bool → Nat} {c : Prop} {p' q' : Parser β} {A : Bool → Prop}
  {question : Parser Bool} {i j : Nat}

theorem mono {least : α → Nat} (h : setting.Agree n more P p q) (hle : ∀ a, least a ≤ more a)
    (hP : ∀ a, P a → P' a) (hm : m ≤ n) : setting.Agree m least P' p q :=
  fun s hs hsize => (h s hs (Nat.le_trans hsize hm)).mono hle fun a _ _ _ => hP a

theorem loosen (h : setting.Agree n more P p q) : setting.Agree n lax P p q :=
  h.mono (fun _ => Nat.zero_le _) (fun _ => id) (Nat.le_refl n)

theorem within (h : setting.Agree n more P p q) (hm : m ≤ n) : setting.Agree m more P p q :=
  h.mono (fun _ => Nat.le_refl _) (fun _ => id) hm

theorem anyhow (h : setting.Agree n more P p q) : setting.Agree n more (fun _ => True) p q :=
  h.mono (fun _ => Nat.le_refl _) (fun _ _ => trivial) (Nat.le_refl n)

theorem fewer (h : setting.Agree (n + 1) more P p q) : setting.Agree n more P p q :=
  h.within (Nat.le_succ n)

theorem gives (h : setting.Agree n more P p q) (hp : Gives P' p) :
    setting.Agree n more (fun a => P a ∧ P' a) p q := by
  intro s hs hsize
  have hmeets := h s hs hsize
  refine ⟨hmeets.same, fun heq => ?_, hmeets.error⟩
  obtain ⟨hreach, hless, ha⟩ := hmeets.ok heq
  exact ⟨hreach, hless, ha, hp _ _ _ heq⟩

-- No stream is empty.
theorem none {least : α → Nat} : setting.Agree 0 least P p q :=
  fun _ _ hsize => absurd hsize (Nat.not_succ_le_zero _)

theorem pure {least : α → Nat} (h : least a = 0) (ha : P a) :
    setting.Agree n least P (Pure.pure a) (Pure.pure a) := by
  intro s _ _
  refine ⟨rfl, fun heq => ?_, nofun⟩
  cases heq
  exact ⟨.refl s, by omega, ha⟩

-- Goes on behind a reader, whatever that has read.
theorem next {k : α → Nat} (hp : setting.Agree n k P p q)
    (hf : ∀ a, P a → setting.Agree n least Q (f a) (g a)) :
    setting.Agree n least Q (p >>= f) (q >>= g) := by
  intro s hs hsize
  refine Meets.bind hs (hp s hs hsize) fun a t _ _ ht hless ha => ?_
  exact (hf a ha t ht (by omega)).mono (fun b => Nat.sub_le _ _) fun _ _ _ _ => id

-- Goes on with one of several values.
theorem jump (ha : P a) (hf : ∀ a, P a → setting.Agree n least Q (f a) (g a)) :
    setting.Agree n least Q (Pure.pure a >>= f) (Pure.pure a >>= g) :=
  fun s hs hsize => hf a ha s hs hsize

-- Goes on behind a reader that has read a token.
theorem first (hp : setting.Agree (n + 1) strict P p q)
    (hf : ∀ a, P a → setting.Agree n (fun b => least b - 1) Q (f a) (g a)) :
    setting.Agree (n + 1) least Q (p >>= f) (q >>= g) :=
  fun s hs hsize => AgreeOn.first (fun s hs hsize _ => hp s hs hsize) hf s hs hsize rfl

-- Goes on behind a reader that has read a token if it has found something.
theorem mark {p q : Parser (Option ω)} {f g : Option ω → Parser β} {P : Option ω → Prop}
    (hp : setting.Agree (n + 1) onSome P p q)
    (hnone : setting.Agree (n + 1) least Q (f .none) (g .none))
    (hsome : ∀ found, P (some found) →
      setting.Agree n (fun b => least b - 1) Q (f (some found)) (g (some found))) :
    setting.Agree (n + 1) least Q (p >>= f) (q >>= g) := by
  intro s hs hsize
  refine Meets.bind hs (hp s hs hsize) fun a t _ _ ht hless ha => ?_
  cases a with
  | none => exact hnone t ht (Nat.le_trans hless hsize)
  | some found => exact hsome found ha t ht (Nat.le_of_succ_le_succ (Nat.le_trans hless hsize))

theorem ite [Decidable c] {p q : Parser β} (hp : c → setting.Agree n least Q p p')
    (hq : ¬ c → setting.Agree n least Q q q') :
    setting.Agree n least Q (if c then p else q) (if c then p' else q') := by
  by_cases h : c
  · simpa only [if_pos h] using hp h
  · simpa only [if_neg h] using hq h

-- A test, and one of two readers by its answer.
theorem test {p q : Parser β} (hquestion : setting.Agree n k A question question)
    (hp : setting.Agree n least Q p p') (hq : setting.Agree n least Q q q') :
    setting.Agree n least Q (do if ← question then p else q) (do if ← question then p' else q') :=
  .next hquestion fun _ _ => .ite (fun _ => hp) fun _ => hq

-- A test that reads a token if its answer is yes.
theorem eat {p q : Parser β} (hquestion : setting.Agree (n + 1) Bool.toNat A question question)
    (hp : setting.Agree n (fun b => least b - 1) Q p p') (hq : setting.Agree (n + 1) least Q q q') :
    setting.Agree (n + 1) least Q (do if ← question then p else q)
      (do if ← question then p' else q') := by
  intro s hs hsize
  refine Meets.bind hs (hquestion s hs hsize) fun answer t _ _ ht hless _ => ?_
  cases answer with
  | false => exact hq t ht (Nat.le_trans hless hsize)
  | true => exact hp t ht (Nat.le_of_succ_le_succ (Nat.le_trans hless hsize))

-- A value that need not be there, and what is done with it.
theorem option {f g : Option α → Parser β} (hquestion : setting.Agree n k A question question)
    (hp : setting.Agree n l P p q)
    (hf : ∀ found : Option α, (∀ a ∈ found, P a) → setting.Agree n least Q (f found) (g found)) :
    setting.Agree n least Q
      (do
        let found ← if ← question then do Pure.pure (some (← p)) else Pure.pure .none
        f found)
      (do
        let found ← if ← question then do Pure.pure (some (← q)) else Pure.pure .none
        g found) :=
  .test hquestion (.next hp fun a ha => hf (some a) (by simpa using ha)) (hf .none (by simp))

theorem optionIte [Decidable c] {f g : Option α → Parser β} (hp : setting.Agree n l P p q)
    (hf : ∀ found : Option α, (∀ a ∈ found, P a) → setting.Agree n least Q (f found) (g found)) :
    setting.Agree n least Q
      (do
        let found ← if c then Pure.pure .none else do Pure.pure (some (← p))
        f found)
      (do
        let found ← if c then Pure.pure .none else do Pure.pure (some (← q))
        g found) :=
  .ite (fun _ => hf .none (by simp)) fun _ =>
    .next hp fun a ha => hf (some a) (by simpa using ha)

theorem optionUnless {f g : Option α → Parser β} (hquestion : setting.Agree n k A question question)
    (hp : setting.Agree n l P p q)
    (hf : ∀ found : Option α, (∀ a ∈ found, P a) → setting.Agree n least Q (f found) (g found)) :
    setting.Agree n least Q
      (do
        let found ← if ← question then Pure.pure .none else do Pure.pure (some (← p))
        f found)
      (do
        let found ← if ← question then Pure.pure .none else do Pure.pure (some (← q))
        g found) :=
  .next hquestion fun _ _ => .optionIte hp hf

-- A look at the current token.
theorem look {r : Parser γ} {f g : γ → Parser β} (of : Token → γ)
    (hr : ∀ s, r s = .ok (of s.current, s))
    (h : ∀ token ∈ setting.tokens, setting.AgreeOn token n least Q (f (of token)) (g (of token))) :
    setting.Agree n least Q (r >>= f) (r >>= g) := by
  intro s hs hsize
  rw [bind_of_ok (hr s), bind_of_ok (hr s)]
  exact h s.current hs.current_mem s hs hsize rfl

-- Readers with limits on their rounds, each of which reads a token, that go on from what they have
-- found so far.
theorem roundsFrom {σ : Type} {I : σ → Prop} {least : α → Nat} {p q : Nat → σ → Parser α}
    (h : ∀ {m i j : Nat}, m < n → m ≤ i → m ≤ j →
      (∀ a, I a → setting.Agree m least P (p i a) (q j a)) →
        ∀ a, I a → setting.Agree (m + 1) least P (p (i + 1) a) (q (j + 1) a)) (hm : m ≤ n)
    (hi : m ≤ i) (hj : m ≤ j) {a : σ} (ha : I a) : setting.Agree m least P (p i a) (q j a) := by
  induction m generalizing i j a with
  | zero => exact .none
  | succ m ih =>
      obtain ⟨i, rfl⟩ := Nat.exists_eq_add_one.mpr (Nat.zero_lt_of_lt hi)
      obtain ⟨j, rfl⟩ := Nat.exists_eq_add_one.mpr (Nat.zero_lt_of_lt hj)
      have hi := Nat.le_of_succ_le_succ hi
      have hj := Nat.le_of_succ_le_succ hj
      exact h hm hi hj (fun a ha => ih (Nat.le_of_lt hm) hi hj ha) a ha

-- Such readers that do not look back.
theorem rounds {least : α → Nat} {p q : Nat → Parser α}
    (h : ∀ {m i j : Nat}, m < n → m ≤ i → m ≤ j → setting.Agree m least P (p i) (q j) →
      setting.Agree (m + 1) least P (p (i + 1)) (q (j + 1))) (hm : m ≤ n) (hi : m ≤ i)
    (hj : m ≤ j) : setting.Agree m least P (p i) (q j) :=
  roundsFrom (σ := Unit) (I := fun _ => True) (p := fun i _ => p i) (q := fun j _ => q j)
    (a := ()) (fun hm hi hj ih _ _ => h hm hi hj (ih () trivial)) hm hi hj trivial

end Agree

theorem advance_meets (hs : setting.Holds s) (hkind : s.current.kind ≠ .eof) :
    setting.Meets strict (fun found _ => found = s.current) s (advance s) (advance s) := by
  refine ⟨rfl, fun heq => ?_, fun heq => ⟨s, .refl s, .unbalanced heq⟩⟩
  rcases tokens_of_advance hs.ended heq with ⟨hend, -⟩ | ⟨-, htokens⟩
  · exact absurd hend hkind
  · refine ⟨.step heq (.refl _), ?_, eq_current_of_advance heq⟩
    have hlength := congrArg List.length htokens
    simp only [List.length_cons, length_tokens] at hlength
    simp only [strict]
    omega

namespace AgreeOn

variable {least : β → Nat} {Q : β → Prop}

theorem of {p q : Parser β} (h : setting.Agree n least Q p q) :
    setting.AgreeOn token n least Q p q :=
  fun s hs hsize _ => h s hs hsize

-- Reads a token that is not the end.
theorem advance {f g : Token → Parser β} (hkind : token.kind ≠ .eof)
    (hf : setting.Agree n (fun b => least b - 1) Q (f token) (g token)) :
    setting.AgreeOn token (n + 1) least Q (Parser.advance >>= f) (Parser.advance >>= g) := by
  rintro s hs hsize rfl
  refine Meets.bind hs (advance_meets hs hkind) fun a t _ _ ht hless ha => ?_
  subst ha
  exact hf t ht (Nat.le_of_succ_le_succ (Nat.le_trans hless hsize))

theorem position {f g : Pos → Parser β}
    (hf : setting.AgreeOn token n least Q (f token.pos) (g token.pos)) :
    setting.AgreeOn token n least Q (Parser.position >>= f) (Parser.position >>= g) := by
  rintro s hs hsize rfl
  exact hf s hs hsize rfl

theorem peek {offset : Nat} {f g : Option Token → Parser β}
    (hf : ∀ a, setting.AgreeOn token n least Q (f a) (g a)) :
    setting.AgreeOn token n least Q (Parser.peek offset >>= f) (Parser.peek offset >>= g) :=
  fun s hs hsize hcurrent => hf (s.peek offset) s hs hsize hcurrent

end AgreeOn

section Primitives

variable {P : α → Prop}

theorem get_agree {f : TokenStream → α} (h : ∀ s, setting.Holds s → P (f s)) :
    setting.Agree n lax P (do return f (← get)) (do return f (← get)) := by
  intro s hs _
  refine ⟨rfl, fun heq => ?_, nofun⟩
  cases heq
  exact ⟨.refl s, Nat.le_refl _, h s hs⟩

theorem current_agree : setting.Agree n lax (· ∈ setting.tokens) current current :=
  get_agree fun _ hs => hs.current_mem

theorem position_agree : setting.Agree n lax setting.IsPlace position position :=
  get_agree fun _ hs => isPlace_of_mem hs.current_mem

theorem peek_agree (offset : Nat) :
    setting.Agree n lax (fun _ => True) (peek offset) (peek offset) :=
  get_agree fun _ _ => trivial

theorem isAtEnd_agree : setting.Agree n lax (fun _ => True) isAtEnd isAtEnd :=
  get_agree fun _ _ => trivial

theorem check_agree (kind : TokenKind) :
    setting.Agree n lax (fun _ => True) (check kind) (check kind) :=
  get_agree fun _ _ => trivial

theorem checkOperator_agree (lexeme : String) :
    setting.Agree n lax (fun _ => True) (checkOperator lexeme) (checkOperator lexeme) :=
  get_agree fun _ _ => trivial

theorem checkKeyword_agree (lexeme : String) :
    setting.Agree n lax (fun _ => True) (checkKeyword lexeme) (checkKeyword lexeme) :=
  get_agree fun _ _ => trivial

theorem advance_agree : setting.Agree n lax (fun _ => True) advance advance := by
  intro s hs _
  refine ⟨rfl, fun heq => ?_, fun heq => ⟨s, .refl s, .unbalanced heq⟩⟩
  have hreach : s.Reaches _ := .step heq (.refl _)
  exact ⟨hreach, hreach.size_le hs.ended, trivial⟩

theorem unexpected_agree {least : α → Nat} (expected : String) :
    setting.Agree n least P (unexpected expected) (unexpected expected) := by
  intro s _ _
  refine ⟨rfl, nofun, fun heq => ?_⟩
  cases heq
  exact ⟨s, .refl s, .unexpected expected⟩

theorem skip_agree {p : Token → Bool} (hp : ∀ token, p token = true → token.isSolid = true) :
    setting.Agree n lax (fun _ => True) (modify (·.dropWhile p)) (modify (·.dropWhile p)) := by
  intro s hs _
  refine ⟨rfl, fun heq => ?_, nofun⟩
  cases heq
  have hreach := reaches_dropWhile hp s
  exact ⟨hreach, hreach.size_le hs.ended, trivial⟩

theorem skipNewlines_agree : setting.Agree n lax (fun _ => True) skipNewlines skipNewlines :=
  skip_agree fun token h => by simp [Token.isSolid, eq_of_beq h]

theorem skipSemicolons_agree : setting.Agree n lax (fun _ => True) skipSemicolons skipSemicolons :=
  skip_agree fun token h => by simp [Token.isSolid, Token.kind_of_is h]

theorem expect_agree (kind : TokenKind) (hkind : kind ≠ .eof) (lexeme : Option String) :
    setting.Agree n strict (fun token => token ∈ setting.tokens ∧ token.kind = kind)
      (expect kind lexeme) (expect kind lexeme) := by
  refine .look (fun token => token) (fun _ => rfl) fun token htoken => ?_
  by_cases hmatch : (token.kind == kind && lexeme.all (· == token.lexeme)) = true
  · rw [if_pos hmatch]
    rintro s hs _ rfl
    have hcurrent := eq_of_beq (Bool.and_eq_true_iff.mp hmatch).1
    refine (advance_meets hs (hcurrent ▸ hkind)).mono (fun _ => Nat.le_refl _) fun a _ _ _ ha => ?_
    subst ha
    exact ⟨htoken, hcurrent⟩
  · rw [if_neg hmatch]
    cases lexeme with
    | none => exact .of (unexpected_agree _)
    | some lexeme => exact .of (unexpected_agree _)

theorem expectOperator_agree (lexeme : String) :
    setting.Agree n strict (fun _ => True) (expectOperator lexeme) (expectOperator lexeme) :=
  (expect_agree .operator nofun (some lexeme)).anyhow

theorem expectKeyword_agree (lexeme : String) :
    setting.Agree n strict (fun _ => True) (expectKeyword lexeme) (expectKeyword lexeme) :=
  (expect_agree .keyword nofun (some lexeme)).anyhow

-- A token is read if it is the one that is looked for.
theorem eat_agree (kind : TokenKind) (hkind : kind ≠ .eof) (lexeme : String) {r : Parser Bool}
    (hr : ∀ s, r s = .ok (s.current.is kind lexeme, s)) :
    setting.Agree n Bool.toNat (fun _ => True)
      (do if ← r then (do let _ ← advance; return true) else return false)
      (do if ← r then (do let _ ← advance; return true) else return false) := by
  cases n with
  | zero => exact .none
  | succ n =>
      refine .look (·.is kind lexeme) hr fun token _ => ?_
      by_cases his : token.is kind lexeme = true
      · rw [if_pos his]
        exact .advance (Token.kind_of_is his ▸ hkind) (.pure rfl trivial)
      · rw [if_neg his]
        exact .of (.pure rfl trivial)

theorem eatOperator_agree (lexeme : String) :
    setting.Agree n Bool.toNat (fun _ => True) (eatOperator lexeme) (eatOperator lexeme) :=
  eat_agree .operator nofun lexeme fun _ => rfl

theorem eatKeyword_agree (lexeme : String) :
    setting.Agree n Bool.toNat (fun _ => True) (eatKeyword lexeme) (eatKeyword lexeme) :=
  eat_agree .keyword nofun lexeme fun _ => rfl

-- Reads an operator in front of something that is read again and again.
theorem separator_agree (lexeme : String) :
    setting.Agree n onSome (fun _ => True)
      (do if ← eatOperator lexeme then return some () else return none)
      (do if ← eatOperator lexeme then return some () else return none) := by
  cases n with
  | zero => exact .none
  | succ n =>
      exact .eat (eatOperator_agree lexeme) (.pure rfl trivial) (.pure rfl trivial)

theorem identifier_agree : setting.Agree n strict setting.IsWord identifier identifier := by
  cases n with
  | zero => exact .none
  | succ n =>
      exact .first (expect_agree .identifier nofun none) fun token htoken =>
        .pure rfl (isWord_of_mem htoken.1 (by simp [htoken.2]))

theorem oneOperator_agree (table : List (String × ω)) :
    setting.Agree n onSome (fun found => ∀ op ∈ found, op ∈ table.map (·.2)) (oneOperator table)
      (oneOperator table) := by
  cases n with
  | zero => exact .none
  | succ n =>
      refine .look (fun token => token) (fun _ => rfl) fun token _ => ?_
      cases hfind : table.find? (fun entry => token.isOperator entry.1) with
      | none => exact .of (.pure rfl (by simp))
      | some entry =>
          have his := List.find?_some hfind
          refine .advance ?_ (.pure rfl fun op hop => ?_)
          · rw [Token.kind_of_is his]
            nofun
          · cases hop
            exact List.mem_map_of_mem (List.mem_of_find?_eq_some hfind)

end Primitives

section Loops

variable {k : α → Nat} {P : α → Prop} {p q : Parser α} {i j : Nat} {M : Option ω → Prop}
  {operator? : Parser (Option ω)}

theorem separated_agree (close : String) (hitem : setting.Agree n strict P p q) (hi : n ≤ i)
    (hj : n ≤ j) :
    setting.Agree n lax (fun items => ∀ a ∈ items, P a) (separated close p i)
      (separated close q j) := by
  refine .rounds (fun hm _ _ ih => ?_) (Nat.le_refl n) hi hj
  refine .test (checkOperator_agree close) (.pure rfl (by simp)) ?_
  refine .first (hitem.within hm) fun a ha => .test (eatOperator_agree ",") ?_
    (.pure rfl (by simpa using ha))
  exact .next ih fun items hitems => .pure rfl (List.forall_mem_cons.mpr ⟨ha, hitems⟩)

theorem enclosed_agree (close : String) (hitem : setting.Agree n strict P p q) (hi : n ≤ i)
    (hj : n ≤ j) :
    setting.Agree n lax (fun items => ∀ a ∈ items, P a) (enclosed close p i) (enclosed close q j) :=
  .next (separated_agree close hitem hi hj) fun _ hitems =>
    .next (expectOperator_agree close) fun _ _ => .pure rfl hitems

-- Items that are read up to the end of the stream leave it at its end.
theorem isAtEnd_of_repeated {skip : Parser Unit}
    (hskip : setting.Agree n lax (fun _ => True) skip skip) (hitem : setting.Agree n strict P p q)
    (hi : n ≤ i) {t : TokenStream} {items : List α} (hs : setting.Holds s) (hsize : s.size ≤ n)
    (h : repeated skip isAtEnd p i s = .ok (items, t)) : t.isAtEnd = true := by
  induction n generalizing i s items with
  | zero => exact absurd hsize (Nat.not_succ_le_zero _)
  | succ n ih =>
      obtain ⟨i, rfl⟩ := Nat.exists_eq_add_one.mpr (Nat.zero_lt_of_lt hi)
      obtain ⟨⟨⟩, u, hskipped, h⟩ := exists_of_bind_run h
      obtain ⟨hreach, hfewer, -⟩ := (hskip s hs hsize).ok hskipped
      have hu := hs.moved hreach
      by_cases hend : u.isAtEnd = true
      · rw [bind_of_ok isAtEnd_run, if_pos hend] at h
        cases h
        exact hend
      · rw [bind_of_ok isAtEnd_run, if_neg hend] at h
        obtain ⟨first, v, hfirst, h⟩ := exists_of_bind_run h
        obtain ⟨rest, w, hrest, h⟩ := exists_of_bind_run h
        cases h
        obtain ⟨hreach, hless, -⟩ := (hitem u hu (Nat.le_trans hfewer hsize)).ok hfirst
        refine ih hskip.fewer hitem.fewer (Nat.le_of_succ_le_succ hi) (hu.moved hreach) ?_ hrest
        simp only [strict, lax] at hless hfewer
        omega

theorem whilst_agree {more : Parser (Option ω)} {p q : ω → Parser α}
    (hmore : setting.Agree n onSome M more more)
    (hitem : ∀ mark, M (some mark) → setting.Agree n lax P (p mark) (q mark)) (hi : n ≤ i)
    (hj : n ≤ j) :
    setting.Agree n lax (fun items => ∀ a ∈ items, P a) (whilst more p i) (whilst more q j) := by
  refine .rounds (fun hm _ _ ih => ?_) (Nat.le_refl n) hi hj
  refine .mark (hmore.within hm) (.pure rfl (by simp)) fun mark hmark => ?_
  exact .next ((hitem mark hmark).within (Nat.le_of_lt hm)) fun a ha => .next ih fun items hitems =>
    .pure rfl (List.forall_mem_cons.mpr ⟨ha, hitems⟩)

theorem chainLeft_agree {apply : ω → α → α → α}
    (hoperator : setting.Agree n onSome M operator? operator?) (hoperand : setting.Agree n k P p q)
    (happly : ∀ op left right, M (some op) → P left → P right → P (apply op left right))
    (hi : n ≤ i) (hj : n ≤ j) {left : α} (hleft : P left) :
    setting.Agree n lax P (chainLeft operator? p apply i left) (chainLeft operator? q apply j left) := by
  refine .roundsFrom (fun hm _ _ ih left hleft => ?_) (Nat.le_refl n) hi hj hleft
  refine .mark (hoperator.within hm) (.pure rfl hleft) fun op hop => ?_
  exact .next (hoperand.within (Nat.le_of_lt hm)) fun right hright =>
    ih _ (happly op left right hop hleft hright)

theorem leftAssoc_agree {P : Expr → Prop} {p q : Parser Expr} {node : ω → Expr → Expr → Pos → Expr}
    (hoperator : setting.Agree (n + 1) onSome M operator? operator?)
    (hoperand : setting.Agree (n + 1) strict P p q)
    (hnode : ∀ op left right pos, M (some op) → setting.IsPlace pos → P left → P right →
      P (node op left right pos)) (hi : n < i) (hj : n < j) :
    setting.Agree (n + 1) strict P (leftAssoc operator? p node i) (leftAssoc operator? q node j) :=
  .next position_agree fun pos hpos => .first hoperand fun _ hfirst =>
    chainLeft_agree hoperator.fewer hoperand.fewer
      (fun op left right hop => hnode op left right pos hop hpos) (Nat.le_of_lt hi)
      (Nat.le_of_lt hj) hfirst

end Loops

section Assignments

variable {P : Expr → Prop} {x y : Parser Expr} {i j : Nat} {target : Expr} {pos : Pos}
  {Q : Stmt → Prop}

theorem checkAssignable_agree (h : setting.IsPlace target.pos) :
    setting.Agree n lax (fun _ => target.isAssignable = true) (checkAssignable target)
      (checkAssignable target) := by
  refine .ite (fun htarget => .pure rfl htarget) fun hnot s _ _ => ⟨rfl, nofun, fun heq => ?_⟩
  cases heq
  exact ⟨s, .refl s, .target h (eq_false_of_ne_true hnot)⟩

theorem checkTargets_agree {targets : List Expr} (h : ∀ e ∈ targets, setting.IsPlace e.pos) :
    setting.Agree n lax (fun _ => ∀ e ∈ targets, e.isAssignable = true)
      (targets.forM checkAssignable) (targets.forM checkAssignable) := by
  induction targets with
  | nil => exact .pure rfl (by simp)
  | cons first rest ih =>
      obtain ⟨hfirst, hrest⟩ := List.forall_mem_cons.mp h
      refine .next (checkAssignable_agree hfirst) fun _ hassignable => ?_
      exact (ih hrest).mono (fun _ => Nat.le_refl _)
        (fun _ hothers => List.forall_mem_cons.mpr ⟨hassignable, hothers⟩) (Nat.le_refl n)

theorem assignedTo_agree (hx : setting.Agree n strict P x y) (hi : n ≤ i) (hj : n ≤ j) :
    setting.Agree n lax (fun found => (∀ e ∈ found.1, P e) ∧ P found.2) (assignedTo x i)
      (assignedTo y j) := by
  refine .rounds (fun hm _ _ ih => ?_) (Nat.le_refl n) hi hj
  refine .next advance_agree fun _ _ => .first (hx.within hm) fun next hnext => ?_
  refine .test (checkOperator_agree "=") ?_ (.pure rfl ⟨by simp, hnext⟩)
  exact .next ih fun found hfound =>
    .pure rfl ⟨List.forall_mem_cons.mpr ⟨hnext, hfound.1⟩, hfound.2⟩

variable (hplace : ∀ e, P e → setting.IsPlace e.pos)

include hplace

-- An assignment without a word that declares its targets.
theorem assignment_agree (hx : setting.Agree n strict P x y) (hi : n ≤ i) (hj : n ≤ j)
    {first : Expr} (hfirst : P first)
    (hnode : ∀ targets value, targets ≠ [] → (∀ e ∈ targets, P e ∧ e.isAssignable = true) →
      P value → Q (.assign targets (some value) none pos)) :
    setting.Agree n lax Q (assignment x i first pos) (assignment y j first pos) := by
  refine .next (assignedTo_agree hx hi hj) fun found hfound => ?_
  have htargets : ∀ e ∈ first :: found.1, P e := List.forall_mem_cons.mpr ⟨hfirst, hfound.1⟩
  refine .next (checkTargets_agree fun e he => hplace e (htargets e he)) fun _ hassignable => ?_
  exact .pure rfl
    (hnode _ _ (by simp) (fun e he => ⟨htargets e he, hassignable e he⟩) hfound.2)

theorem augmented_agree (hx : setting.Agree n strict P x y) (op : BinaryOp) (htarget : P target)
    (hnode : ∀ value, target.isAssignable = true → P value → Q (.augAssign target op value pos)) :
    setting.Agree n lax Q (augmented x op target pos) (augmented y op target pos) :=
  .next (checkAssignable_agree (hplace target htarget)) fun _ hassignable =>
    .next advance_agree fun _ _ => .next hx fun value hvalue =>
      .pure rfl (hnode value hassignable hvalue)

end Assignments

end Setting

end Parser

end Diglot
