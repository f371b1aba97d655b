import Diglot.Proofs.Indented.Levels
import Diglot.Proofs.Subexpressions

namespace Diglot.Indented

open Diglot.Parser TokenStream
open Grammar (chain_reads enclosed_wholes)
open Token (op kw word)

section Forms

-- The entries of a dict. A key is written as any other expression.
def dict (entries : List (Written × Written)) : Written :=
  let texts := entries.map fun entry => entry.1.text ++ ':' :: ' ' :: entry.2.text
  let tokens := entries.map fun entry => entry.1.tokens ++ op ":" :: entry.2.tokens
  ⟨'{' :: (commaTexts texts ++ ['}']), op "\x7b" :: (commas tokens ++ [op "\x7d"]),
    .dict (entries.map fun entry => ⟨dictKey entry.1.value, entry.2.value⟩) .start, 14⟩

def slice (object : Written) (start stop step : Option Written) : Written :=
  let bounds := start.elim [] Written.text ++ ':' :: (stop.elim [] Written.text ++
    step.elim [] (':' :: ·.text))
  let tokens := start.elim [] Written.tokens ++ op ":" :: (stop.elim [] Written.tokens ++
    step.elim [] (op ":" :: ·.tokens))
  ⟨object.text ++ '[' :: (bounds ++ [']']), object.tokens ++ op "[" :: (tokens ++ [op "]"]),
    .slice object.value (start.map Written.value) (stop.map Written.value)
      (step.map Written.value) .start, 14⟩

def unaryText : UnaryOp → List Char
  | .negate => ['-']
  | .plus => ['+']
  | .not => ['n', 'o', 't', ' ']

def unaryToken : UnaryOp → Token
  | .negate => op "-"
  | .plus => op "+"
  | .not => kw "not"

-- A sign is tighter than a power, and `not` is looser than a comparison.
def unaryRank : UnaryOp → Nat
  | .not => 4
  | _ => 13

def prefixed (op : UnaryOp) (operand : Written) : Written :=
  ⟨unaryText op ++ operand.text, unaryToken op :: operand.tokens, .unary op operand.value .start,
    unaryRank op⟩

def binaryRank : BinaryOp → Nat
  | .add | .subtract => 10
  | .power => 12
  | _ => 11

def binary (op : BinaryOp) (left right : Written) : Written :=
  .infixed (binarySymbol op) (.op (binarySymbol op)) (binaryRank op) (.binary op · · .start)
    left right

-- A sign in front of what is written. In front of a power it goes to the base.
def withSign (sign : UnaryOp) (w : Written) : Written :=
  match w.rank, w.value with
  | 12, .binary .power base exponent pos =>
      ⟨unaryText sign ++ w.text, unaryToken sign :: w.tokens,
        .binary .power (.unary sign base .start) exponent pos, 12⟩
  | _, _ => prefixed sign w

def logicalWord : BoolOp → String
  | .and => "and"
  | .or => "or"

def logicalRank : BoolOp → Nat
  | .or => 2
  | .and => 3

def logical (op : BoolOp) (left right : Written) : Written :=
  .infixed (logicalWord op) (kw (logicalWord op)) (logicalRank op) (.logical op · · .start)
    left right

def compareTokens : CompareOp → List Token
  | .isIn => [kw "in"]
  | .notIn => [kw "not", kw "in"]
  | other => [op (compareSymbol other)]

def linksText (links : List (Comparison Written)) : List Char :=
  links.flatMap fun link => ' ' :: ((compareSymbol link.op).toList ++ ' ' :: link.right.text)

def linkTokens (links : List (Comparison Written)) : List Token :=
  links.flatMap fun link => compareTokens link.op ++ link.right.tokens

def linkValues (links : List (Comparison Written)) : List (Comparison Expr) :=
  links.map fun link => ⟨link.op, link.right.value⟩

def compare (left : Written) (links : List (Comparison Written)) : Written :=
  ⟨left.text ++ linksText links, left.tokens ++ linkTokens links,
    linked left.value .start (linkValues links), 5⟩

def ternary (consequent test alternate : Written) : Written :=
  ⟨consequent.text ++ ' ' :: ("if".toList ++ ' ' :: (test.text ++ ' ' :: ("else".toList ++
      ' ' :: alternate.text))),
    consequent.tokens ++ kw "if" :: (test.tokens ++ kw "else" :: alternate.tokens),
    .conditional test.value consequent.value alternate.value .start, 1⟩

end Forms

-- The expressions inside interpolated strings are read by their own reader.
variable {embedded : Embedder}

abbrev Reads (embedded : Embedder) (rank : Nat) (tokens : List Token)
    (value : Expr) : Prop :=
  Diglot.Reads (frontEnd embedded) rank tokens value

namespace Reads

variable {rank leftRank rightRank : Nat} {tokens left right : List Token}
  {value first second : Expr}

theorem leaf {token : Token} (hpos : token.pos = .start)
    (hbegins : grammar.begins 14 token.kind token.lexeme = true)
    (hprimary : ∀ (expression : Parser Expr) (limit : Nat) (rest : List Token)
      (blocks : Blocks), primary embedded expression limit (ahead (token :: rest) blocks) =
        .ok (value, ahead rest blocks)) : Reads embedded 14 [token] value where
  ranked := Nat.zero_lt_succ 13
  starts := ⟨token, [], rfl, hpos, hbegins⟩
  readsAt _ _ := suffixed_opens _ _ _ ⟨token, [], rfl, hpos, hbegins⟩ (hprimary _ _)

theorem name (name : String) : Reads embedded 14 [word name] (.var name .start) :=
  leaf rfl rfl fun _ _ _ _ => by simp [primary, bind_run, map_run]

theorem number (literal : String) :
    Reads embedded 14 [.number literal] (.number literal .start) :=
  leaf rfl rfl fun _ _ _ _ => by simp [primary, bind_run, map_run]

theorem signed {sign : UnaryOp} (hsign : sign ≠ .not) (h : Reads embedded rank tokens value)
    (hrank : 13 ≤ rank) :
    Reads embedded 13 (unaryToken sign :: tokens) (.unary sign value .start) := by
  obtain ⟨lexeme, htoken, hfind, hbegins⟩ : ∃ lexeme, unaryToken sign = op lexeme ∧
      signOps.find? (fun entry => lexeme == entry.1) = some (lexeme, sign) ∧
        grammar.begins 13 .operator lexeme = true := by
    cases sign with
    | negate => exact ⟨"-", rfl, by decide, rfl⟩
    | plus => exact ⟨"+", rfl, by decide, rfl⟩
    | not => contradiction
  rw [htoken]
  refine ⟨Nat.zero_lt_succ 12, ⟨_, _, rfl, rfl, hbegins⟩, ?_⟩
  intro limit hlimit rounds hrounds rest blocks hrest
  rw [List.length_cons] at hlimit hrounds
  have hpos := h.length_pos
  obtain ⟨rounds, rfl⟩ : ∃ fewer, rounds = fewer + 1 := ⟨rounds - 1, by omega⟩
  have hoperand : ∀ rounds, _ := h.at_of_le limit (by omega) hrank
  rw [List.cons_append, Indented.signed, bind_of_ok position_run, bind_of_ok (oneOperator_op hfind)]
  exact bind_of_ok (hoperand rounds (by omega) rest blocks hrest)

theorem power (hleft : Reads embedded leftRank left first)
    (hright : Reads embedded rightRank right second) (hleftrank : 13 ≤ leftRank)
    (hrightrank : 12 ≤ rightRank) :
    Reads embedded 12 (left ++ op "**" :: right) (.binary .power first second .start) := by
  refine hleft.infixed (Nat.zero_lt_succ 11) (Nat.le_of_succ_le hleftrank) ?_
  intro limit hlimit hlimit' rounds hrounds rest blocks hrest
  simp only [List.length_append, List.length_cons] at hrounds
  have hpos := hleft.length_pos
  obtain ⟨rounds, rfl⟩ : ∃ fewer, rounds = fewer + 1 := ⟨rounds - 1, by omega⟩
  have hbase : ∀ rounds, _ := hleft.at_of_le limit (by omega) hleftrank
  have hexponent : ∀ rounds, _ := hright.at_of_le limit (by omega) hrightrank
  have hlevel : grammar.level (op "**") < 13 := by decide
  have hstart : (ahead (left ++ (op "**" :: (right ++ rest))) blocks).current.pos = .start :=
    hleft.starts.pos
  rw [List.append_assoc, List.cons_append, Indented.power, bind_of_ok position_run,
    bind_of_ok ((hbase _ (by omega)).before hlevel _ _), bind_of_ok (eatOperator_op "**"), hstart]
  exact bind_of_ok (hexponent rounds (by omega) rest blocks hrest)

-- An operator of a left-associative level, behind a left operand of that level.
theorem binary {op : BinaryOp} (hop : op ≠ .power) (hleft : Reads embedded leftRank left first)
    (hright : Reads embedded rightRank right second) (hleftrank : binaryRank op ≤ leftRank)
    (hrightrank : binaryRank op < rightRank) :
    Reads embedded (binaryRank op) (left ++ .op (binarySymbol op) :: right)
      (.binary op first second .start) := by
  refine hleft.infixed (by cases op <;> exact Nat.zero_lt_succ _) hleftrank
    fun limit hlimit hlimit' => ?_
  have hchain := hleft.at_of_le limit (by omega) hleftrank
  have hoperand := hright.at_of_le limit (by omega) hrightrank
  cases op with
  | power => contradiction
  | add | subtract =>
      exact Grammar.Opens.step hchain (fun _ _ => oneOperator_op (by decide)) (by decide)
        (chain_reads (by decide) hoperand (by omega)) (by omega)
  | multiply | divide | floorDivide | modulo =>
      exact Grammar.Opens.step hchain (fun _ _ => oneOperator_op (by decide)) (by decide)
        (hoperand _ (by omega)) (by omega)

end Reads

abbrev Sound (embedded : Embedder) (w : Written) : Prop :=
  Diglot.Sound (frontEnd embedded) w

namespace Sound

variable {w object callee : Written} {parts : List Written}

theorem leaf {text : List Char} {token : Token} {value : Expr}
    (hlexes : scanner.LexesAs text [token]) (hopens : text.head?.any opensText = true)
    (h : Reads embedded 14 [token] value) : Sound embedded (.leaf text token value) where
  toReads := h
  lexes := hlexes
  opens := hopens

theorem group (h : Sound embedded w) : Sound embedded w.group where
  ranked := Nat.zero_lt_succ 13
  lexes := h.lexes.group
  opens := rfl
  starts := ⟨_, _, rfl, rfl, rfl⟩
  readsAt limit hlimit := by
    refine suffixed_opens _ _ _ ⟨_, _, rfl, rfl, rfl⟩ fun rest blocks => ?_
    simp only [Written.group, List.length_cons, List.length_append] at hlimit
    have hinner : grammar.Whole (expression embedded limit) w.tokens w.value := h.whole (by omega)
    simp [Written.group, primary, bind_run, map_run, hinner.run ")" rfl]

theorem list (h : ∀ part ∈ parts, Sound embedded part) : Sound embedded (.list parts) where
  ranked := Nat.zero_lt_succ 13
  lexes := Written.lexes_list fun part hpart => (h part hpart).lexes
  opens := rfl
  starts := ⟨_, _, rfl, rfl, rfl⟩
  readsAt limit hlimit := by
    refine suffixed_opens _ _ _ ⟨_, _, rfl, rfl, rfl⟩ fun rest blocks => ?_
    simp only [Written.list, List.length_cons, List.length_append] at hlimit
    obtain ⟨hparts, hlength⟩ := Diglot.Sound.wholes h limit (by omega)
    have hclose := enclosed_wholes "]" ⟨by decide, rfl⟩ ⟨rfl, rfl⟩ hparts
      (Nat.lt_succ_of_le hlength) rest blocks
    simp [Written.list, primary, bind_run, map_run, hclose]

theorem dict {entries : List (Written × Written)}
    (h : ∀ entry ∈ entries, Sound embedded entry.1 ∧ Sound embedded entry.2) :
    Sound embedded (Indented.dict entries) where
  ranked := Nat.zero_lt_succ 13
  lexes := by
    have hentries := Scanner.lexesAs_commas fun entry hentry =>
      Scanner.LexesAs.append (h entry hentry).1.lexes
        ((Scanner.LexesAs.blank (h entry hentry).2.lexes).mark ':' (by decide))
        fun rest _ => ends_cons (by decide) _
    exact hentries.enclosed '{' '}' (by decide) (by decide)
  opens := rfl
  starts := ⟨_, _, rfl, rfl, rfl⟩
  readsAt limit hlimit := by
    refine suffixed_opens _ _ _ ⟨_, _, rfl, rfl, rfl⟩ fun rest blocks => ?_
    simp only [Indented.dict, List.length_cons, List.length_append] at hlimit
    have hentries : ∀ entry ∈ entries,
        grammar.Whole (expression embedded limit) entry.1.tokens entry.1.value ∧
          grammar.Whole (expression embedded limit) entry.2.tokens entry.2.value := by
      intro entry hentry
      have hlength := length_le_length_commas hentry
        fun entry => entry.1.tokens ++ op ":" :: entry.2.tokens
      simp only [List.length_append, List.length_cons] at hlength
      exact ⟨(h entry hentry).1.whole (by omega), (h entry hentry).2.whole (by omega)⟩
    have hlength : entries.length < limit + 1 := by
      have hpos : ∀ entry ∈ entries,
          0 < (entry.1.tokens ++ op ":" :: entry.2.tokens).length := by
        intro entry _
        rw [List.length_append, List.length_cons]
        omega
      have := length_parts_le hpos
      omega
    have hclose := enclosed_entries hentries hlength rest blocks
    simp [Indented.dict, primary, bind_run, map_run, hclose]

-- The suffixes. Each is read once what it applies to is.

theorem member (h : Sound embedded object) (hrank : 14 ≤ object.rank) {name : String}
    (hname : isName name = true) : Sound embedded (.member object name (word name)) := by
  refine h.suffixed hrank ?_ fun limit hlimit _ hobject => ?_
  · exact Scanner.LexesAs.append h.lexes (lexesAs_member hname) fun rest _ =>
      ends_point hname rest
  · exact Grammar.Opens.extend hobject (level_le _)
      (fun rounds rest blocks _ => suffixes_member _ _ _ _ rounds rest blocks) hlimit

theorem index (h : Sound embedded object) (hrank : 14 ≤ object.rank) (hinner : Sound embedded w) :
    Sound embedded (.index object w) := by
  refine h.suffixed hrank (h.lexes.index hinner.lexes) fun limit hlimit hmore hobject => ?_
  rw [List.length_append] at hmore
  have hwhole := hinner.whole (Nat.le_of_succ_le hmore)
  refine Grammar.Opens.extend hobject (level_le _) (fun rounds rest blocks _ => ?_) hlimit
  exact suffixes_subscript (subscript_index hwhole _ rest blocks) rounds

theorem call (h : Sound embedded callee) (hrank : 14 ≤ callee.rank)
    (hargs : ∀ part ∈ parts, Sound embedded part) : Sound embedded (.call callee parts) := by
  have hlexes := h.lexes.call fun part hpart => (hargs part hpart).lexes
  refine h.suffixed hrank hlexes fun limit hlimit hmore hcallee => ?_
  rw [List.length_append] at hmore
  obtain ⟨hparts, hlength⟩ := Diglot.Sound.wholes hargs limit (Nat.le_of_succ_le hmore)
  exact Grammar.Opens.extend hcallee (level_le _)
    (fun rounds rest blocks _ =>
      suffixes_call hparts (Nat.lt_succ_of_le hlength) callee.value rounds rest blocks) hlimit

end Sound

section Slice

variable {start stop step : Option Written} {part : Option Written}

theorem lexesAs_bound (h : ∀ w ∈ part, Sound embedded w) :
    scanner.LexesAs (part.elim [] Written.text) (part.elim [] Written.tokens) := by
  cases part with
  | none => exact Scanner.lexesAs_nil
  | some w => exact (h w rfl).lexes

theorem lexesAs_step (h : ∀ w ∈ part, Sound embedded w) :
    scanner.LexesAs (part.elim [] (':' :: ·.text)) (part.elim [] (op ":" :: ·.tokens)) := by
  cases part with
  | none => exact Scanner.lexesAs_nil
  | some w => exact Scanner.LexesAs.mark (h w rfl).lexes ':' (by decide)

theorem ends_step (part : Option Written) {rest : List Char} (hrest : Ends rest) :
    Ends (part.elim [] (':' :: ·.text) ++ rest) := by
  cases part with
  | none => exact hrest
  | some w => exact ends_cons (by decide) _

theorem whole_of_mem (h : ∀ w ∈ part, Sound embedded w) {limit : Nat}
    (hlimit : (part.elim [] Written.tokens).length ≤ limit) :
    ∀ w ∈ part, grammar.Whole (expression embedded limit) w.tokens w.value := by
  rintro w rfl
  exact (h w rfl).whole hlimit

theorem Sound.slice {object : Written} (h : Sound embedded object) (hrank : 14 ≤ object.rank)
    (hstart : ∀ w ∈ start, Sound embedded w) (hstop : ∀ w ∈ stop, Sound embedded w)
    (hstep : ∀ w ∈ step, Sound embedded w) :
    Sound embedded (Indented.slice object start stop step) := by
  refine h.suffixed hrank ?_ fun limit hlimit hmore hobject => ?_
  · have hrest := ((lexesAs_bound hstop).append (lexesAs_step hstep)
      fun rest hrest => ends_step step hrest).mark ':' (by decide)
    have hinner := (lexesAs_bound hstart).append hrest fun rest _ => ends_cons (by decide) _
    have hbrackets := hinner.enclosed '[' ']' (by decide) (by decide)
    exact Scanner.LexesAs.append h.lexes hbrackets fun rest _ => ends_cons (by decide) _
  · simp only [List.length_cons, List.length_append] at hmore
    have hsteplength : (step.elim [] Written.tokens).length ≤ limit := by
      cases step with
      | none => exact Nat.zero_le _
      | some w =>
          simp only [Option.elim_some, List.length_cons] at hmore ⊢
          omega
    have hslice := fun rest blocks => subscript_slice (whole_of_mem hstart (by omega))
      (whole_of_mem hstop (by omega)) (whole_of_mem hstep hsteplength) object.value rest blocks
    refine Grammar.Opens.extend hobject (level_le _) (fun rounds rest blocks _ => ?_) hlimit
    exact suffixes_subscript (by simpa using hslice rest blocks) rounds

end Slice

section Operators

variable {w operand left right base exponent : Written}

-- An operand does not make a longer operator of the sign in front of it.
theorem lexesAs_sign (h : Sound embedded operand) (sign : String) (hsign : sign ∈ ["+", "-"]) :
    scanner.LexesAs (sign.toList ++ operand.text) (op sign :: operand.tokens) := by
  intro state rest behind hrest hlexes
  have hoperand := h.lexes hrest hlexes
  have hopens := h.opens
  have hsymbol : ∀ sign ∈ ["+", "-"],
      sign ∈ operators ∧ sign ∉ ["(", "[", "\x7b", ")", "]", "\x7d"] := by decide
  have hfollowers : ∀ sign ∈ ["+", "-"], Piece.followers operators sign.toList = ['='] := by
    decide
  rw [List.append_assoc]
  refine Lexes.operator sign (hsymbol sign hsign) hoperand ?_
  rw [hfollowers sign hsign]
  cases htext : operand.text with
  | nil => simp [htext] at hopens
  | cons c more =>
      rintro d hd hequals
      have hc : opensText c = true := by simpa [htext] using hopens
      obtain rfl : c = d := by simpa using hd
      rw [List.mem_singleton.mp hequals] at hc
      simp [opensText] at hc

theorem reads_not (h : Sound embedded operand) (hrank : 4 ≤ operand.rank) :
    Reads embedded 4 (kw "not" :: operand.tokens) (.unary .not operand.value .start) where
  ranked := Nat.zero_lt_succ 3
  starts := ⟨_, _, rfl, rfl, rfl⟩
  readsAt limit hlimit rounds hrounds rest blocks hrest := by
    rw [List.length_cons] at hlimit hrounds
    have hpos := h.length_pos
    obtain ⟨rounds, rfl⟩ : ∃ fewer, rounds = fewer + 1 := ⟨rounds - 1, by omega⟩
    have hoperand : ∀ rounds, _ := h.at_of_le limit (by omega) hrank
    rw [List.cons_append, negation, bind_of_ok position_run, bind_of_ok (eatKeyword_kw "not")]
    exact bind_of_ok (hoperand rounds (by omega) rest blocks hrest)

theorem Sound.prefixed {op : UnaryOp} (h : Sound embedded operand)
    (hrank : unaryRank op ≤ operand.rank) : Sound embedded (Indented.prefixed op operand) where
  toReads := by
    cases op with
    | negate => exact Reads.signed (by simp) h.toReads hrank
    | plus => exact Reads.signed (by simp) h.toReads hrank
    | not => exact reads_not h hrank
  lexes := by
    cases op with
    | negate => exact lexesAs_sign h "-" (by decide)
    | plus => exact lexesAs_sign h "+" (by decide)
    | not =>
        exact (lexesAs_keyword "not" (by decide) (by decide)).append
          (Scanner.LexesAs.blank h.lexes) fun rest _ => ends_cons (by decide) _
  opens := by cases op <;> rfl

theorem Sound.power (hbase : Sound embedded base) (hexponent : Sound embedded exponent)
    (hbaserank : 13 ≤ base.rank) (hrank : 12 ≤ exponent.rank) :
    Sound embedded (binary .power base exponent) :=
  Diglot.Sound.infixed (joins_operator _ (by decide)) hbase hexponent
    (Nat.le_of_succ_le hbaserank) (Reads.power hbase.toReads hexponent.toReads hbaserank hrank)

theorem Sound.binary {op : BinaryOp} (hop : op ≠ .power) (hleft : Sound embedded left)
    (hright : Sound embedded right) (hleftrank : binaryRank op ≤ left.rank)
    (hrightrank : binaryRank op < right.rank) :
    Sound embedded (Indented.binary op left right) :=
  Diglot.Sound.infixed (joins_operator _ (by cases op <;> decide)) hleft hright hleftrank
    (Reads.binary hop hleft.toReads hright.toReads hleftrank hrightrank)

theorem Sound.logical {op : BoolOp} (hleft : Sound embedded left) (hright : Sound embedded right)
    (hleftrank : logicalRank op ≤ left.rank) (hrightrank : logicalRank op < right.rank) :
    Sound embedded (Indented.logical op left right) := by
  refine Diglot.Sound.infixed (joins_keyword _ (by cases op <;> decide) (by cases op <;> decide))
    hleft hright hleftrank (hleft.toReads.infixed (by cases op <;> exact Nat.zero_lt_succ _)
      hleftrank fun limit hlimit hlimit' => ?_)
  have hchain := hleft.at_of_le limit (by omega) hleftrank
  have hoperand := hright.at_of_le limit (by omega) hrightrank
  cases op with
  | and =>
      exact Grammar.Opens.step hchain (fun _ _ => joinedBy_kw _ _) (by decide)
        (hoperand _ (by omega)) (by omega)
  | or =>
      exact Grammar.Opens.step hchain (fun _ _ => joinedBy_kw _ _) (by decide)
        (conjunction_reads hoperand (by omega)) (by omega)

-- A power that is not in brackets.
def IsPower (embedded : Embedder) (w : Written) : Prop :=
  ∃ base exponent, w = binary .power base exponent ∧ Sound embedded base ∧
    Sound embedded exponent ∧ 13 ≤ base.rank ∧ 12 ≤ exponent.rank

theorem IsPower.sound (h : IsPower embedded w) : Sound embedded w := by
  obtain ⟨base, exponent, rfl, hbase, hexponent, hbaserank, hrank⟩ := h
  exact hbase.power hexponent hbaserank hrank

theorem text_withSign (sign : UnaryOp) (w : Written) :
    (withSign sign w).text = unaryText sign ++ w.text := by
  unfold withSign
  split <;> rfl

theorem withSign_power (sign : UnaryOp) (base exponent : Written) :
    withSign sign (binary .power base exponent) = binary .power (prefixed sign base) exponent := by
  simp [withSign, binary, binaryRank, Written.infixed, prefixed]

theorem withSign_of_lt (sign : UnaryOp) (h : 12 < w.rank) : withSign sign w = prefixed sign w := by
  unfold withSign
  split
  · omega
  · rfl

theorem withSign_of_isPower (sign : UnaryOp) (h : w.value.isPower = false) :
    withSign sign w = prefixed sign w := by
  unfold withSign
  split
  · rename_i hvalue
    simp [hvalue, Expr.isPower] at h
  · rfl

-- A sign in front of a power is read as a sign in front of its base.
theorem IsPower.withSign {sign : UnaryOp} (hsign : sign ≠ .not) (h : IsPower embedded w) :
    IsPower embedded (withSign sign w) := by
  obtain ⟨base, exponent, rfl, hbase, hexponent, hbaserank, hrank⟩ := h
  have htight : unaryRank sign = 13 := by cases sign <;> first | rfl | contradiction
  refine ⟨prefixed sign base, exponent, withSign_power sign base exponent, ?_, hexponent, ?_, hrank⟩
  · exact hbase.prefixed (htight ▸ hbaserank)
  · exact Nat.le_of_eq htight.symm

end Operators

section Compare

variable {left : Written} {links : List (Comparison Written)} {rest : List Token}
  {blocks : Blocks}

theorem lexes_compare (op : CompareOp) {state : scanner.State} {rest : List Char}
    {behind : List Token} (h : scanner.lexes state rest behind) :
    scanner.lexes state ((compareSymbol op).toList ++ ' ' :: rest)
      (compareTokens op ++ behind) := by
  have hin := joins_keyword "in" (by decide) (by decide) h
  cases op with
  | isIn => exact hin
  | notIn => exact joins_keyword "not" (by decide) (by decide) hin
  | less | greater | lessEqual | greaterEqual | equal | notEqual =>
      exact joins_operator _ (by decide) h

theorem ends_links (links : List (Comparison Written)) {rest : List Char} (hrest : Ends rest) :
    Ends (linksText links ++ rest) := by
  cases links with
  | nil => exact hrest
  | cons link links => exact ends_cons (by decide) _

theorem lexesAs_links (h : ∀ link ∈ links, Sound embedded link.right) :
    scanner.LexesAs (linksText links) (linkTokens links) := by
  induction links with
  | nil => exact Scanner.lexesAs_nil
  | cons link links ih =>
      obtain ⟨hright, hlinks⟩ := List.forall_mem_cons.mp h
      intro state rest behind hrest hlexes
      have hmore := Scanner.LexesAs.append hright.lexes (ih hlinks)
        (fun rest => ends_links links) hrest hlexes
      have hlink := scanner.blank (lexes_compare link.op hmore)
      simpa [linksText, linkTokens] using hlink

theorem compareOp_symbol {op : CompareOp} (htokens : compareTokens op = [.op (compareSymbol op)])
    (hfind : compareOps.find? (fun entry => compareSymbol op == entry.1) =
      some (compareSymbol op, op)) (rest : List Token) (blocks : Blocks) :
    compareOp? (ahead (compareTokens op ++ rest) blocks) = .ok (some op, ahead rest blocks) := by
  rw [htokens, List.singleton_append, compareOp?, bind_of_ok (oneOperator_op hfind)]
  rfl

theorem compareOp_tokens (op : CompareOp) (rest : List Token) (blocks : Blocks) :
    compareOp? (ahead (compareTokens op ++ rest) blocks) = .ok (some op, ahead rest blocks) := by
  have hmiss : ∀ keyword more, oneOperator compareOps (ahead (kw keyword :: more) blocks) =
      .ok (none, ahead (kw keyword :: more) blocks) := fun _ _ => oneOperator_miss fun _ _ => rfl
  cases op with
  | less | greater | lessEqual | greaterEqual | equal | notEqual =>
      exact compareOp_symbol rfl (by decide) rest blocks
  | isIn =>
      rw [compareTokens, List.singleton_append, compareOp?, bind_of_ok (hmiss _ _)]
      dsimp only
      rw [bind_of_ok (eatKeyword_kw "in")]
      rfl
  | notIn =>
      have hin : (kw "not").isKeyword "in" = false := by decide
      have hpeek : Parser.peek 1 (ahead (kw "not" :: kw "in" :: rest) blocks) =
          .ok (some (kw "in"), ahead (kw "not" :: kw "in" :: rest) blocks) := rfl
      rw [compareTokens, List.cons_append, List.singleton_append, compareOp?,
        bind_of_ok (hmiss _ _)]
      dsimp only
      rw [bind_of_ok (eatKeyword_miss hin)]
      simp [bind_run, map_run, hpeek]

-- In front of a comparison operator, and of what ends a comparison, an operand ends.
theorem level_links (links : List (Comparison Written))
    (hrest : grammar.level (ahead rest blocks).current < 5) :
    grammar.level (ahead (linkTokens links ++ rest) blocks).current < 10 := by
  cases links with
  | nil => exact Nat.lt_trans hrest (by decide)
  | cons link links =>
      obtain ⟨op, right⟩ := link
      cases op <;> exact (by decide : 5 < 10)

-- The links of a comparison are read one by one.
theorem links_run {p : Parser Expr} {limit : Nat}
    (hrest : grammar.level (ahead rest blocks).current < 5)
    (h : ∀ link ∈ links, grammar.ReadsAs p 10 link.right.tokens link.right.value)
    (hlimit : links.length < limit) :
    whilst compareOp? (fun op => do return (⟨op, ← p⟩ : Comparison Expr)) limit
        (ahead (linkTokens links ++ rest) blocks) =
      .ok (linkValues links, ahead rest blocks) := by
  induction links generalizing limit with
  | nil => exact whilst_stop (compareOp_of_binds hrest) hlimit
  | cons link links ih =>
      obtain ⟨op, right⟩ := link
      obtain ⟨hright, hlinks⟩ := List.forall_mem_cons.mp h
      rw [List.length_cons] at hlimit
      obtain ⟨limit, rfl⟩ : ∃ fewer, limit = fewer + 1 := ⟨limit - 1, by omega⟩
      have hitem := hright (linkTokens links ++ rest) blocks (level_links links hrest)
      have htokens : linkTokens (⟨op, right⟩ :: links) ++ rest =
        compareTokens op ++ (right.tokens ++ (linkTokens links ++ rest)) := by simp [linkTokens]
      rw [htokens]
      refine whilst_step (compareOp_tokens op _ _) ?_ (ih hlinks (by omega))
      rw [bind_of_ok hitem, pure_run]

theorem length_link_le {link : Comparison Written} (h : link ∈ links) :
    link.right.tokens.length ≤ (linkTokens links).length := by
  induction links with
  | nil => cases h
  | cons first links ih =>
      simp only [linkTokens, List.flatMap_cons, List.length_append]
      rcases List.mem_cons.mp h with rfl | h
      · omega
      · have := ih h
        simp only [linkTokens] at this
        omega

theorem length_links_le (h : ∀ link ∈ links, 0 < link.right.tokens.length) :
    links.length ≤ (linkTokens links).length := by
  induction links with
  | nil => exact Nat.le_refl _
  | cons link links ih =>
      obtain ⟨hright, hlinks⟩ := List.forall_mem_cons.mp h
      have := ih hlinks
      simp only [linkTokens, List.flatMap_cons, List.length_append, List.length_cons] at this ⊢
      omega

theorem Sound.compare (hleft : Sound embedded left)
    (hlinks : ∀ link ∈ links, Sound embedded link.right) (hleftrank : 5 < left.rank)
    (hrank : ∀ link ∈ links, 5 < link.right.rank) :
    Sound embedded (Indented.compare left links) where
  ranked := Nat.zero_lt_succ 4
  lexes := Scanner.LexesAs.append hleft.lexes (lexesAs_links hlinks) fun _ => ends_links links
  opens := hleft.opens_append (Nat.le_of_lt hleftrank) _
  starts := hleft.starts.append (Nat.le_of_lt hleftrank)
  readsAt limit hlimit rest blocks hrest := by
    simp only [Indented.compare, List.length_append] at hlimit
    have hpos := hleft.length_pos
    have hfirst := chain_reads (by decide) (hleft.at_of_le limit (by omega) hleftrank) (by omega)
    have hothers : ∀ link ∈ links,
        grammar.ReadsAs (sum embedded (expression embedded limit) (limit + 1)) 10 link.right.tokens
          link.right.value := by
      intro link hlink
      have := length_link_le hlink
      exact chain_reads (by decide)
        ((hlinks link hlink).at_of_le limit (by omega) (hrank link hlink)) (by omega)
    have hcount := length_links_le fun link hlink => (hlinks link hlink).length_pos
    rw [Indented.compare, List.append_assoc, comparison_eq, bind_of_ok position_run,
      bind_of_ok (hfirst _ blocks (level_links links hrest)),
      bind_of_ok (links_run hrest hothers (by omega)), hleft.starts.pos]
    rfl

end Compare

theorem Sound.ternary {consequent test alternate : Written}
    (hconsequent : Sound embedded consequent) (htest : Sound embedded test)
    (halternate : Sound embedded alternate) (hrank : 1 < consequent.rank)
    (htestrank : 1 < test.rank) :
    Sound embedded (Indented.ternary consequent test alternate) where
  ranked := Nat.zero_lt_one
  lexes := by
    have helse := Scanner.LexesAs.join htest.lexes halternate.lexes
      (joins_keyword "else" (by decide) (by decide))
    exact Scanner.LexesAs.join hconsequent.lexes helse (joins_keyword "if" (by decide) (by decide))
  opens := hconsequent.opens_append (Nat.le_of_lt hrank) _
  starts := hconsequent.starts.append (Nat.le_of_lt hrank)
  readsAt limit hlimit rest blocks hrest := by
    simp only [Indented.ternary, List.length_cons, List.length_append] at hlimit
    have hfirst := disjunction_reads (hconsequent.at_of_le limit (by omega) hrank) (by omega)
    have hsecond := disjunction_reads (htest.at_of_le limit (by omega) htestrank) (by omega)
    have hlast : grammar.Whole (expression embedded limit) _ _ := halternate.whole (by omega)
    have hif : grammar.level (kw "if") < 2 := by decide
    have helse : grammar.level (kw "else") < 2 := by decide
    rw [Indented.ternary, List.append_assoc, List.cons_append, List.append_assoc, List.cons_append,
      conditional, bind_of_ok position_run, bind_of_ok (hfirst.before hif _ _),
      test_of_true (eatKeyword_kw "if"), bind_of_ok (hsecond.before helse _ _),
      bind_of_ok (expectKeyword_kw "else"), bind_of_ok (hlast.reads rest blocks hrest),
      hconsequent.starts.pos]
    rfl

-- The text of an expression is made into tokens that are read to their end, as its value.
theorem tokenize_written {w : Written} (h : Sound embedded w) :
    ∃ tokens found rest, tokenize (String.ofList w.text) = .ok tokens ∧
      expression embedded (TokenStream.withLayout tokens).size (TokenStream.withLayout tokens) =
          .ok (found, rest) ∧
        rest.isAtEnd = true ∧ placeless found = placeless w.value := by
  have hnil : scanner.lexes ([], 0) [] [.ending] := lexes_nil
  have htext : Lexes [] 0 (w.text ++ []) _ := h.lexes ends_nil hnil
  rw [List.append_nil, ← String.toList_ofList (l := w.text)] at htext
  obtain ⟨tokens, htokenize, htokens⟩ :=
    htext.tokenize ((String.toList_ofList (l := w.text)).symm ▸ h.opens)
  have hexpected : placeless tokens = placeless (w.tokens ++ [.ending]) := by
    rw [← placeless_placeless_tokens, htokens]
  have hwhole := (h.whole (Nat.le_succ _)).reads [] (some []) Nat.zero_lt_one
  rw [List.append_nil] at hwhole
  obtain ⟨found, rest, hread⟩ :=
    Parser.whole_of_blind hexpected (fun limit => expression_blind _ limit) hwhole
  exact ⟨tokens, found, rest, htokenize, hread⟩

end Diglot.Indented
