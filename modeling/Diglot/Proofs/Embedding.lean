import Diglot.Proofs.Braced.Lexed
import Diglot.Text.Embedding

namespace Diglot

-- Whether a character of a name, in either notation, is left alone wherever a name is embedded.
def isInert (c : Char) : Bool := !(['"', '\'', '`', '{', '}', '\\', '\n'].contains c || isBlank c)

theorem isInert_of_isWordPart {c : Char} (h : Braced.isWordPart c = true) : isInert c = true := by
  have hne : ∀ d, Braced.isWordPart d = false → c ≠ d := fun d hd => ne_of_test h hd
  simp [isInert, Braced.isBlank_of_isWordPart h, hne '"' rfl, hne '\'' rfl, hne '`' rfl,
    hne '{' rfl, hne '}' rfl, hne '\\' rfl, hne '\n' rfl]

namespace Embedding

variable {text source : List Char}

-- Where the search for the closing brace is behind a character: how many braces are open, and inside
-- which quotes it is. Nothing, if the character closes the expression.
def step (state : Nat × Option Char) (c : Char) : Option (Nat × Option Char) :=
  match state with
  | (depth, some quote) => some (depth, if c == quote then none else some quote)
  | (depth, none) =>
      if c == '"' || c == '\'' || c == '`' then some (depth, some c)
      else if c == '{' then some (depth + 1, none)
      else if c == '}' then
        match depth with
        | 0 => none
        | outer + 1 => some (outer, none)
      else some (depth, none)

def scan (state : Nat × Option Char) (text : List Char) : Option (Nat × Option Char) :=
  text.foldlM step state

-- Whether the search goes over a text: every brace in it is closed there, and every quote.
def passes (text : List Char) : Bool := scan (0, none) text == some (0, none)

theorem scan_append (state : Nat × Option Char) (text more : List Char) :
    scan state (text ++ more) = (scan state text).bind (scan · more) := by
  rw [scan, List.foldlM_append]
  rfl

theorem scan_cons (state : Nat × Option Char) (c : Char) (text : List Char) :
    scan state (c :: text) = (step state c).bind (scan · text) := rfl

theorem step_eq_none {state : Nat × Option Char} {c : Char} (h : step state c = none) :
    state = (0, none) ∧ c = '}' := by
  unfold step at h
  split at h
  · cases h
  · split at h
    · cases h
    split at h
    · cases h
    split at h
    · rename_i hc
      split at h
      · exact ⟨rfl, eq_of_beq hc⟩
      · cases h
    · cases h

theorem close_cons (depth : Nat) (quote : Option Char) (c : Char) (rest : List Char) :
    close depth quote (c :: rest) =
      match step (depth, quote) c with
      | none => some ([], rest)
      | some state =>
          (close state.1 state.2 rest).map fun (source, behind) => (c :: source, behind) := by
  conv => lhs; unfold close
  unfold step
  cases quote with
  | some quote => rfl
  | none =>
      dsimp only
      split
      · rfl
      split
      · rfl
      split
      · cases depth <;> rfl
      · rfl

-- The brace that is found is the first one that closes the expression.
theorem close_eq_some_iff {depth : Nat} {quote : Option Char} {behind : List Char} :
    close depth quote text = some (source, behind) ↔
      text = source ++ '}' :: behind ∧ scan (depth, quote) source = some (0, none) := by
  induction text generalizing depth quote source with
  | nil => simp [close]
  | cons c rest ih =>
      rw [close_cons]
      cases hstep : step (depth, quote) c with
      | none =>
          obtain ⟨hstate, rfl⟩ := step_eq_none hstep
          cases source with
          | nil => simp [scan, hstate]
          | cons d source =>
              constructor
              · intro h
                cases h
              · rintro ⟨hsplit, hscan⟩
                cases hsplit
                rw [scan_cons, hstep] at hscan
                cases hscan
      | some state =>
          cases source with
          | nil =>
              constructor
              · intro h
                obtain ⟨found, -, hfound⟩ := Option.map_eq_some_iff.mp h
                cases hfound
              · rintro ⟨hsplit, hscan⟩
                cases hsplit
                cases hscan
                cases hstep
          | cons d source =>
              have hmap : ((close state.1 state.2 rest).map fun (source, behind) =>
                  (c :: source, behind)) = some (d :: source, behind) ↔
                    c = d ∧ close state.1 state.2 rest = some (source, behind) := by
                rw [Option.map_eq_some_iff]
                constructor
                · rintro ⟨found, hclose, hfound⟩
                  cases hfound
                  exact ⟨rfl, hclose⟩
                · rintro ⟨rfl, hclose⟩
                  exact ⟨_, hclose, rfl⟩
              simp only [hmap, ih, List.cons_append, List.cons.injEq, scan_cons]
              constructor
              · rintro ⟨rfl, hsplit, hscan⟩
                exact ⟨⟨rfl, hsplit⟩, by rw [hstep]; exact hscan⟩
              · rintro ⟨⟨rfl, hsplit⟩, hscan⟩
                rw [hstep] at hscan
                exact ⟨rfl, hsplit, hscan⟩

theorem close_of_passes (h : passes source = true) (behind : List Char) :
    close 0 none (source ++ '}' :: behind) = some (source, behind) :=
  close_eq_some_iff.mpr ⟨rfl, eq_of_beq h⟩

-- The characters that the search takes note of.
def marks : List Char := ['"', '\'', '`', '{', '}']

def isUnmarked (text : List Char) : Bool := text.all fun c => !marks.contains c

theorem scan_unmarked (h : isUnmarked text = true) (depth : Nat) :
    scan (depth, none) text = some (depth, none) := by
  induction text with
  | nil => rfl
  | cons c text ih =>
      obtain ⟨hc, htext⟩ := Bool.and_eq_true_iff.mp h
      simp only [marks, List.contains_eq_mem, List.mem_cons, List.not_mem_nil, or_false,
        Bool.not_eq_true', decide_eq_false_iff_not, not_or] at hc
      have hstep : step (depth, none) c = some (depth, none) := by simp [step, hc]
      rw [scan_cons, hstep]
      exact ih htext

-- What stands in quotes is passed over, if no such quote is in it.
theorem scan_quoted {quote : Char} (hquote : quote ∈ ['"', '\'']) (h : quote ∉ text) (depth : Nat) :
    scan (depth, none) (quote :: (text ++ [quote])) = some (depth, none) := by
  have hinside : ∀ {text : List Char}, quote ∉ text →
      scan (depth, some quote) text = some (depth, some quote) := by
    intro text h
    induction text with
    | nil => rfl
    | cons c text ih =>
        simp only [List.mem_cons, not_or] at h
        have hstep : step (depth, some quote) c = some (depth, some quote) := by
          simp [step, Ne.symm h.1]
        rw [scan_cons, hstep]
        exact ih h.2
  have hopen : step (depth, none) quote = some (depth, some quote) := by
    rcases mem_pair.mp hquote with rfl | rfl <;> rfl
  rw [scan_cons, hopen, Option.bind_some, scan_append, hinside h]
  simp [scan, step]

theorem step_deeper {depth inner : Nat} {quote other : Option Char} {c : Char}
    (h : step (depth, quote) c = some (inner, other)) :
    step (depth + 1, quote) c = some (inner + 1, other) := by
  cases quote with
  | some quote =>
      cases h
      rfl
  | none => cases depth <;> simp only [step] at h ⊢ <;> grind

-- Inside one more brace the search is one deeper.
theorem scan_deeper {depth inner : Nat} {quote other : Option Char}
    (h : scan (depth, quote) text = some (inner, other)) :
    scan (depth + 1, quote) text = some (inner + 1, other) := by
  induction text generalizing depth quote with
  | nil =>
      cases h
      rfl
  | cons c text ih =>
      rw [scan_cons] at h ⊢
      obtain ⟨state, hstep, hrest⟩ := Option.bind_eq_some_iff.mp h
      rw [step_deeper hstep]
      exact ih hrest

-- The text of an expression that can be embedded: it starts and ends with it, and the search for
-- the closing brace goes over it.
structure Compact (text : List Char) : Prop where
  opens : text.head?.any (!isBlank ·) = true
  closes : text.getLast?.any (!isBlank ·) = true
  passes : passes text = true

theorem Compact.trimBlanks (h : Compact text) : trimBlanks text = text := by
  have hdrop : ∀ {text : List Char}, text.head?.any (!isBlank ·) = true →
      text.dropWhile isBlank = text := by
    intro text h
    cases text with
    | nil => rfl
    | cons c rest => simp_all
  rw [Diglot.trimBlanks, hdrop h.opens, hdrop (by rw [List.head?_reverse]; exact h.closes),
    List.reverse_reverse]

theorem compact_of_inert (hne : text ≠ []) (h : ∀ c ∈ text, isInert c = true) : Compact text := by
  have hblank : ∀ c ∈ text, (!isBlank c) = true := fun c hc => by
    have hinert := h c hc
    simp only [isInert, Bool.not_or, Bool.and_eq_true] at hinert
    exact hinert.2
  refine ⟨?_, ?_, ?_⟩
  · rw [List.head?_eq_some_head hne]
    exact hblank _ (List.head_mem hne)
  · rw [List.getLast?_eq_some_getLast hne]
    exact hblank _ (List.getLast_mem hne)
  · refine beq_iff_eq.mpr (scan_unmarked (List.all_eq_true.mpr fun c hc => ?_) 0)
    have hinert := h c hc
    simp only [isInert, List.contains_eq_mem, List.mem_cons, List.not_mem_nil, or_false,
      Bool.not_eq_true', Bool.or_eq_false_iff, decide_eq_false_iff_not, not_or] at hinert
    simp [marks, hinert]

end Embedding

end Diglot
