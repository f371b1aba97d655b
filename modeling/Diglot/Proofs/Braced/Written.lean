import Diglot.Proofs.Braced.Levels

namespace Diglot.Braced

open Diglot.Parser TokenStream
open Grammar (chain_reads enclosed_wholes)
open Token (op kw word)

section Forms

def construct (name : String) (args : List Written) : Written :=
  ⟨'n' :: 'e' :: 'w' :: ' ' :: (name.toList ++ '(' :: (commaTexts (args.map Written.text) ++ [')'])),
    kw "new" :: word name :: op "(" :: (commas (args.map Written.tokens) ++ [op ")"]),
    .construct (.var name .start) (args.map Written.value) .start, 14⟩

def keyText : DictKey Written → List Char
  | .literal text => (quote text).toList
  | .number text => text.toList
  | .computed key => '[' :: (key.text ++ [']'])

def keyTokens : DictKey Written → List Token
  | .literal text => [.string text]
  | .number text => [.number text]
  | .computed key => op "[" :: (key.tokens ++ [op "]"])

def keyValue : DictKey Written → DictKey Expr
  | .literal text => .literal text
  | .number text => .number text
  | .computed key => .computed key.value

-- The entries of a dict stand between blanks if there are any.
def dict (entries : List (DictEntry Written)) : Written :=
  let texts := entries.map fun entry => keyText entry.key ++ ':' :: ' ' :: entry.value.text
  let tokens := entries.map fun entry => keyTokens entry.key ++ op ":" :: entry.value.tokens
  ⟨'{' :: ((if entries.isEmpty then [] else ' ' :: (commaTexts texts ++ [' '])) ++ ['}']),
    op "\x7b" :: (commas tokens ++ [op "\x7d"]),
    .dict (entries.map fun entry => ⟨keyValue entry.key, entry.value.value⟩) .start, 14⟩

def unarySymbol : UnaryOp → String
  | .not => "!"
  | .negate => "-"
  | .plus => "+"

def prefixed (op : UnaryOp) (operand : Written) : Written :=
  ⟨(unarySymbol op).toList ++ operand.text, .op (unarySymbol op) :: operand.tokens,
    .unary op operand.value .start, 13⟩

def binaryRank : BinaryOp → Nat
  | .add | .subtract => 10
  | .power => 12
  | _ => 11

def binary (op : BinaryOp) (left right : Written) : Written :=
  .infixed (binarySymbol op) (.op (binarySymbol op)) (binaryRank op) (.binary op · · .start)
    left right

def compareRank : CompareOp → Nat
  | .equal | .notEqual => 4
  | _ => 5

def compare (op : CompareOp) (left right : Written) : Written :=
  .infixed (compareSymbol op) (.op (compareSymbol op)) (compareRank op) (comparison op · · .start)
    left right

def logicalSymbol : BoolOp → String
  | .and => "&&"
  | .or => "||"

def logicalRank : BoolOp → Nat
  | .and => 3
  | .or => 2

def logical (op : BoolOp) (left right : Written) : Written :=
  .infixed (logicalSymbol op) (.op (logicalSymbol op)) (logicalRank op) (.logical op · · .start)
    left right

def ternary (test consequent alternate : Written) : Written :=
  ⟨test.text ++ ' ' :: '?' :: ' ' :: (consequent.text ++ ' ' :: ':' :: ' ' :: alternate.text),
    test.tokens ++ op "?" :: (consequent.tokens ++ op ":" :: alternate.tokens),
    .conditional test.value consequent.value alternate.value .start, 1⟩

end Forms

abbrev Reads (rank : Nat) (tokens : List Token) (value : Expr) : Prop :=
  Diglot.Reads frontEnd rank tokens value

namespace Reads

variable {rank leftRank rightRank : Nat} {tokens left right : List Token}
  {value first second third : Expr}

theorem leaf {token : Token} (hpos : token.pos = .start)
    (hbegins : grammar.begins 14 token.kind token.lexeme = true)
    (hprimary : ∀ (expression : Parser Expr) (limit : Nat) (rest : List Token)
      (blocks : Blocks), primary expression limit (ahead (token :: rest) blocks) =
        .ok (value, ahead rest blocks)) : Reads 14 [token] value where
  ranked := Nat.zero_lt_succ 13
  starts := ⟨token, [], rfl, hpos, hbegins⟩
  readsAt _ _ :=
    suffixed_opens _ _ ⟨token, [], rfl, hpos, hbegins⟩ fun rest blocks _ => hprimary _ _ rest blocks

theorem name (name : String) : Reads 14 [word name] (.var name .start) :=
  leaf rfl rfl fun _ _ _ _ => by simp [primary, bind_run, map_run]

theorem number (literal : String) : Reads 14 [.number literal] (.number literal .start) :=
  leaf rfl rfl fun _ _ _ _ => by simp [primary, bind_run, map_run]

-- An operator in front of an operand, which may have further ones in front.
theorem prefixed (op : UnaryOp) (h : Reads rank tokens value) (hrank : 13 ≤ rank) :
    Reads 13 (.op (unarySymbol op) :: tokens) (.unary op value .start) where
  ranked := Nat.zero_lt_succ 12
  starts := ⟨_, _, rfl, rfl, by cases op <;> rfl⟩
  readsAt limit hlimit rounds hrounds rest blocks hrest := by
    rw [List.length_cons] at hlimit hrounds
    have hpos := h.length_pos
    obtain ⟨rounds, rfl⟩ : ∃ fewer, rounds = fewer + 1 := ⟨rounds - 1, by omega⟩
    have hoperand : ∀ rounds, _ := h.at_of_le limit (by omega) hrank
    have hfind : unaryOps.find? (fun entry => unarySymbol op == entry.1) =
        some (unarySymbol op, op) := by cases op <;> decide
    rw [List.cons_append, unary, bind_of_ok position_run, bind_of_ok (oneOperator_op hfind)]
    exact bind_of_ok (hoperand rounds (by omega) rest blocks hrest)

theorem power (hleft : Reads leftRank left first) (hright : Reads rightRank right second)
    (hleftrank : 13 ≤ leftRank) (hrightrank : 12 ≤ rightRank) :
    Reads 12 (left ++ op "**" :: right) (.binary .power first second .start) := by
  refine hleft.infixed (by decide) (Nat.le_of_succ_le hleftrank) ?_
  intro limit hlimit hlimit' rounds hrounds rest blocks hrest
  simp only [List.length_append, List.length_cons] at hrounds
  have hpos := hleft.length_pos
  obtain ⟨rounds, rfl⟩ : ∃ fewer, rounds = fewer + 1 := ⟨rounds - 1, by omega⟩
  have hbase : ∀ rounds, _ := hleft.at_of_le limit (by omega) hleftrank
  have hexponent : ∀ rounds, _ := hright.at_of_le limit (by omega) hrightrank
  have hlevel : grammar.level (op "**") < 13 := by decide
  have hstart : (ahead (left ++ (op "**" :: (right ++ rest))) blocks).current.pos = .start :=
    hleft.starts.pos
  rw [List.append_assoc, List.cons_append, Braced.power, bind_of_ok position_run,
    bind_of_ok ((hbase _ (by omega)).before hlevel _ _), bind_of_ok (eatOperator_op "**"), hstart]
  exact bind_of_ok (hexponent rounds (by omega) rest blocks hrest)

-- An operator of a left-associative level, behind a left operand of that level.
theorem binary {op : BinaryOp} (hop : op ∉ [.power, .floorDivide])
    (hleft : Reads leftRank left first) (hright : Reads rightRank right second)
    (hleftrank : binaryRank op ≤ leftRank) (hrightrank : binaryRank op < rightRank) :
    Reads (binaryRank op) (left ++ .op (binarySymbol op) :: right)
      (.binary op first second .start) := by
  refine hleft.infixed (by cases op <;> decide) hleftrank fun limit hlimit hlimit' => ?_
  have hchain := hleft.at_of_le limit (by omega) hleftrank
  have hoperand := hright.at_of_le limit (by omega) hrightrank
  cases op with
  | power | floorDivide => simp at hop
  | add | subtract =>
      exact Grammar.Opens.step hchain (fun _ _ => oneOperator_op (by decide)) (by decide)
        (chain_reads (by decide) hoperand (by omega)) (by omega)
  | multiply | divide | modulo =>
      exact Grammar.Opens.step hchain (fun _ _ => oneOperator_op (by decide)) (by decide)
        (hoperand _ (by omega)) (by omega)

theorem compare {op : CompareOp} (hop : op ∉ [.isIn, .notIn])
    (hleft : Reads leftRank left first) (hright : Reads rightRank right second)
    (hleftrank : compareRank op ≤ leftRank) (hrightrank : compareRank op < rightRank) :
    Reads (compareRank op) (left ++ .op (compareSymbol op) :: right)
      (comparison op first second .start) := by
  refine hleft.infixed (by cases op <;> decide) hleftrank fun limit hlimit hlimit' => ?_
  have hchain := hleft.at_of_le limit (by omega) hleftrank
  have hoperand := hright.at_of_le limit (by omega) hrightrank
  cases op with
  | isIn | notIn => simp at hop
  | less | greater | lessEqual | greaterEqual =>
      exact Grammar.Opens.step hchain (fun _ _ => oneOperator_op (by decide)) (by decide)
        ((chain_reads (by decide) hoperand (by omega)).mono (by decide)) (by omega)
  | equal | notEqual =>
      exact Grammar.Opens.step hchain (fun _ _ => oneOperator_op (by decide)) (by decide)
        (chain_reads (by decide) hoperand (by omega)) (by omega)

theorem logical {op : BoolOp} (hleft : Reads leftRank left first)
    (hright : Reads rightRank right second) (hleftrank : logicalRank op ≤ leftRank)
    (hrightrank : logicalRank op < rightRank) :
    Reads (logicalRank op) (left ++ .op (logicalSymbol op) :: right)
      (.logical op first second .start) := by
  refine hleft.infixed (by cases op <;> decide) hleftrank fun limit hlimit hlimit' => ?_
  have hchain := hleft.at_of_le limit (by omega) hleftrank
  have hoperand := hright.at_of_le limit (by omega) hrightrank
  cases op with
  | and | or =>
      exact Grammar.Opens.step hchain (fun _ _ => oneOperator_op (by decide)) (by decide)
        (chain_reads (by decide) hoperand (by omega)) (by omega)

theorem ternary (htest : Reads rank tokens first) (hleft : Reads leftRank left second)
    (hright : Reads rightRank right third) (hrank : 1 < rank) :
    Reads 1 (tokens ++ op "?" :: (left ++ op ":" :: right))
      (.conditional first second third .start) := by
  refine htest.infixed Nat.zero_lt_one (Nat.le_of_lt hrank) ?_
  intro limit hlimit hlimit' rest blocks hrest
  simp only [List.length_cons, List.length_append] at hlimit'
  have hfirst := chain_reads (by decide) (htest.at_of_le limit (by omega) hrank) (by omega)
  have hsecond : grammar.Whole (expression limit) _ _ := hleft.whole (by omega)
  have hlast : grammar.Whole (expression limit) _ _ := hright.whole (by omega)
  have hlevel : grammar.level (op "?") < 2 := by decide
  rw [List.append_assoc, List.cons_append, List.append_assoc, List.cons_append, conditional,
    bind_of_ok position_run, bind_of_ok (hfirst.before hlevel _ _),
    bind_of_ok (eatOperator_op "?"), htest.starts.pos]
  simp only [if_true]
  rw [bind_of_ok (hsecond.run ":" rfl _ _), bind_of_ok (expectOperator_op ":"),
    bind_of_ok (hlast.reads rest blocks hrest)]
  rfl

end Reads

abbrev Sound (w : Written) : Prop := Diglot.Sound frontEnd w

namespace Sound

variable {w object callee operand left right test consequent alternate : Written}
  {parts : List Written} {name : String}

theorem leaf {text : List Char} {token : Token} {value : Expr}
    (hlexes : scanner.LexesAs text [token])
    (hopens : text.head?.any (opensText 14) = true) (h : Reads 14 [token] value) :
    Sound (.leaf text token value) where
  toReads := h
  lexes := hlexes
  opens := hopens

theorem group (h : Sound w) : Sound w.group where
  ranked := Nat.zero_lt_succ 13
  lexes := h.lexes.group
  opens := rfl
  starts := ⟨_, _, rfl, rfl, rfl⟩
  readsAt limit hlimit := by
    refine suffixed_opens _ _ ⟨_, _, rfl, rfl, rfl⟩ fun rest blocks _ => ?_
    simp only [Written.group, List.length_cons, List.length_append] at hlimit
    have hinner : grammar.Whole (expression limit) w.tokens w.value := h.whole (by omega)
    simp [Written.group, primary, bind_run, map_run, hinner.run ")" rfl]

theorem list (h : ∀ part ∈ parts, Sound part) : Sound (.list parts) where
  ranked := Nat.zero_lt_succ 13
  lexes := Written.lexes_list fun part hpart => (h part hpart).lexes
  opens := rfl
  starts := ⟨_, _, rfl, rfl, rfl⟩
  readsAt limit hlimit := by
    refine suffixed_opens _ _ ⟨_, _, rfl, rfl, rfl⟩ fun rest blocks _ => ?_
    simp only [Written.list, List.length_cons, List.length_append] at hlimit
    obtain ⟨hparts, hlength⟩ := Diglot.Sound.wholes h limit (by omega)
    have hclose := enclosed_wholes "]" (by decide) ⟨rfl, rfl⟩ hparts (Nat.lt_succ_of_le hlength)
      rest blocks
    simp [Written.list, primary, bind_run, map_run, hclose]

-- The suffixes. Each is read once what it applies to is.

theorem member (h : Sound object) (hrank : 14 ≤ object.rank) (hname : isWord name.toList = true) :
    Sound (.member object name (wordToken name)) := by
  refine h.suffixed hrank ?_ fun limit hlimit _ hobject => ?_
  · exact Scanner.LexesAs.append h.lexes (lexesAs_property hname) fun rest _ =>
      ends_point hname rest
  · exact Grammar.Opens.extend hobject (level_le _)
      (fun rounds rest blocks _ => suffixes_member _ _ _ _ rounds rest blocks) hlimit

theorem index (h : Sound object) (hrank : 14 ≤ object.rank) (hinner : Sound w) :
    Sound (.index object w) := by
  refine h.suffixed hrank (h.lexes.index hinner.lexes) fun limit hlimit hmore hobject => ?_
  rw [List.length_append] at hmore
  have hwhole := hinner.whole (Nat.le_of_succ_le hmore)
  exact Grammar.Opens.extend hobject (level_le _)
    (fun rounds rest blocks _ => suffixes_index hwhole _ rounds rest blocks) hlimit

theorem call (h : Sound callee) (hrank : 14 ≤ callee.rank) (hargs : ∀ part ∈ parts, Sound part) :
    Sound (.call callee parts) := by
  have hlexes := h.lexes.call fun part hpart => (hargs part hpart).lexes
  refine h.suffixed hrank hlexes fun limit hlimit hmore hcallee => ?_
  rw [List.length_append] at hmore
  obtain ⟨hparts, hlength⟩ := Diglot.Sound.wholes hargs limit (Nat.le_of_succ_le hmore)
  exact Grammar.Opens.extend hcallee (level_le _)
    (fun rounds rest blocks _ =>
      suffixes_call hparts (Nat.lt_succ_of_le hlength) callee.value rounds rest blocks) hlimit

theorem construct (hargs : ∀ part ∈ parts, Sound part) (hname : isName name = true) :
    Sound (Braced.construct name parts) where
  ranked := Nat.zero_lt_succ 13
  lexes := by
    have hargs := Scanner.lexesAs_commas fun part hpart => (hargs part hpart).lexes
    have hcall := (lexesAs_name hname).append (hargs.enclosed '(' ')' (by decide) (by decide))
      fun _ _ => ends_cons (by decide) _
    have hnew : scanner.LexesAs "new".toList [kw "new"] := lexesAs_word (by decide)
    exact hnew.append hcall.blank fun _ _ => ends_cons (by decide) _
  opens := rfl
  starts := ⟨_, _, rfl, rfl, rfl⟩
  readsAt limit hlimit := by
    refine suffixed_opens _ _ ⟨_, _, rfl, rfl, rfl⟩ fun rest blocks _ => ?_
    simp only [Braced.construct, List.length_cons, List.length_append] at hlimit
    obtain ⟨hparts, hlength⟩ := Diglot.Sound.wholes hargs limit (by omega)
    have hread := construction_run hparts (Nat.lt_succ_of_le hlength) name rest blocks
    simp [Braced.construct, primary, bind_run, hread]

end Sound

-- What makes a key of a dict sound.
def KeySound : DictKey Written → Prop
  | .literal text => text.toList.all Quoted.isPlain = true
  | .number text => Number.isLiteral text.toList = true
  | .computed key => Sound key

section Entries

variable {key : DictKey Written} {entries : List (DictEntry Written)}

theorem KeySound.lexes (h : KeySound key) : scanner.LexesAs (keyText key) (keyTokens key) := by
  cases key with
  | literal text => exact lexesAs_string h
  | number text => exact lexesAs_number h
  | computed key => exact Scanner.LexesAs.enclosed h.lexes '[' ']' (by decide) (by decide)

theorem KeySound.isOperator_eq_false (h : KeySound key) (more : List Token)
    (blocks : Blocks) :
    (ahead (keyTokens key ++ more) blocks).current.isOperator "\x7d" = false := by
  cases key <;> rfl

-- A property is read as its key and its value, in front of a comma or a brace.
theorem KeySound.property_run (h : KeySound key) {limit : Nat}
    (hlimit : (keyTokens key).length ≤ limit) {tokens : List Token} {value : Expr}
    (hvalue : grammar.Whole (expression limit) tokens value) (next : String)
    (hnext : grammar.level (op next) = 0) (rest : List Token) (blocks : Blocks) :
    property (expression limit)
        (ahead (keyTokens key ++ op ":" :: (tokens ++ op next :: rest)) blocks) =
      .ok (⟨keyValue key, value⟩, ahead (op next :: rest) blocks) := by
  have hvalue : ∀ token, propertyValue (expression limit) token
      (ahead (op ":" :: (tokens ++ op next :: rest)) blocks) =
        .ok (value, ahead (op next :: rest) blocks) := by
    intro token
    rw [propertyValue, bind_of_ok (eatOperator_op ":")]
    exact hvalue.run next hnext rest blocks
  cases key with
  | literal text | number text => simp [keyTokens, keyValue, property, bind_run, map_run, hvalue]
  | computed key =>
      simp only [keyTokens, List.length_cons, List.length_append] at hlimit
      have hkey : grammar.Whole (expression limit) key.tokens key.value :=
        Diglot.Reads.whole h.toReads (by omega)
      simp [keyTokens, keyValue, property, bind_run, map_run, hvalue, hkey.run "]" rfl]

theorem lexesAs_entry {entry : DictEntry Written} (hkey : KeySound entry.key)
    (hvalue : Sound entry.value) :
    scanner.LexesAs (keyText entry.key ++ ':' :: ' ' :: entry.value.text)
      (keyTokens entry.key ++ op ":" :: entry.value.tokens) :=
  hkey.lexes.append ((Scanner.LexesAs.blank hvalue.lexes).mark ':' (by decide))
    fun _ _ => ends_cons (by decide) _

-- The entries of a dict are read one by one.
theorem enclosed_entries (limit : Nat)
    (h : ∀ entry ∈ entries, KeySound entry.key ∧ Sound entry.value)
    (hlimit : (commas (entries.map fun entry =>
      keyTokens entry.key ++ op ":" :: entry.value.tokens)).length ≤ limit) (rest : List Token)
    (blocks : Blocks) :
    enclosed "\x7d" (property (expression limit)) (limit + 1)
        (ahead (commas (entries.map fun entry =>
          keyTokens entry.key ++ op ":" :: entry.value.tokens) ++ op "\x7d" :: rest) blocks) =
      .ok (entries.map fun entry => ⟨keyValue entry.key, entry.value.value⟩, ahead rest blocks) := by
  have hlevel : ∀ next ∈ [",", "\x7d"], grammar.level (op next) = 0 := by decide
  have hcount : entries.length < limit + 1 := by
    have hpos : ∀ entry ∈ entries,
        0 < (keyTokens entry.key ++ op ":" :: entry.value.tokens).length := by
      intro entry _
      rw [List.length_append, List.length_cons]
      omega
    have := length_parts_le hpos
    omega
  refine enclosed_run (by decide) rest ?_ ?_ hcount
  · intro entry hentry next hnext rest
    obtain ⟨hkey, hvalue⟩ := h entry hentry
    have hlength := length_le_length_commas hentry
      fun entry => keyTokens entry.key ++ op ":" :: entry.value.tokens
    simp only [List.length_append, List.length_cons] at hlength
    rw [List.append_assoc, List.cons_append]
    exact hkey.property_run (by omega) (hvalue.whole (by omega)) next (hlevel next hnext) rest
      blocks
  · intro entry hentry rest
    rw [List.append_assoc]
    exact (h entry hentry).1.isOperator_eq_false _ blocks

theorem Sound.dict (h : ∀ entry ∈ entries, KeySound entry.key ∧ Sound entry.value) :
    Sound (Braced.dict entries) where
  ranked := Nat.zero_lt_succ 13
  lexes := by
    have hentries := Scanner.lexesAs_commas fun entry hentry =>
      lexesAs_entry (h entry hentry).1 (h entry hentry).2
    have hspaced := hentries.blank.append Scanner.lexesAs_nil.blank
      fun _ _ => ends_cons (by decide) _
    rw [List.append_nil] at hspaced
    cases entries with
    | nil => exact Scanner.lexesAs_nil.enclosed '{' '}' (by decide) (by decide)
    | cons first others => exact hspaced.enclosed '{' '}' (by decide) (by decide)
  opens := rfl
  starts := ⟨_, _, rfl, rfl, rfl⟩
  readsAt limit hlimit := by
    refine suffixed_opens _ _ ⟨_, _, rfl, rfl, rfl⟩ fun rest blocks _ => ?_
    simp only [Braced.dict, List.length_cons, List.length_append] at hlimit
    have hclose := enclosed_entries limit h (by omega) rest blocks
    simp [Braced.dict, primary, bind_run, map_run, hclose]

end Entries

namespace Sound

variable {operand left right test consequent alternate : Written}

-- An operator in front of an operand. The signs stay apart from further signs.
theorem prefixed {op : UnaryOp} (h : Sound operand) (hrank : 13 ≤ operand.rank)
    (hsign : op ≠ .not → 14 ≤ operand.rank) : Sound (Braced.prefixed op operand) where
  toReads := Reads.prefixed op h.toReads hrank
  lexes := by
    intro depth rest more hrest hlexes
    have hopens := h.opens
    simp only [Braced.prefixed, List.append_assoc]
    refine Lexes.operator (unarySymbol op) (by cases op <;> decide) (h.lexes hrest hlexes) ?_
    cases htext : operand.text with
    | nil => simp [htext] at hopens
    | cons c text =>
        rintro d hd
        cases hd
        have hopens : opensText operand.rank c = true := by simpa [htext] using hopens
        simp only [opensText, Bool.and_eq_true, Bool.or_eq_true, decide_eq_true_eq,
          bne_iff_ne] at hopens
        have hapart : op ≠ .not → c ≠ '+' ∧ c ≠ '-' := fun hop =>
          hopens.2.resolve_left (by have := hsign hop; omega)
        have hnot : followers ['!'] = ['=', '='] := by decide
        have hminus : followers ['-'] = ['-', '='] := by decide
        have hplus : followers ['+'] = ['+', '='] := by decide
        cases op with
        | not => simp [unarySymbol, hnot, hopens.1]
        | negate => simp [unarySymbol, hminus, hopens.1, (hapart (by simp)).2]
        | plus => simp [unarySymbol, hplus, hopens.1, (hapart (by simp)).1]
  opens := by cases op <;> rfl

theorem power (hleft : Sound left) (hright : Sound right) (hleftrank : 13 ≤ left.rank)
    (hrightrank : 12 ≤ right.rank) : Sound (Braced.binary .power left right) :=
  Diglot.Sound.infixed (joins_operator _ (by decide)) hleft hright (Nat.le_of_succ_le hleftrank)
    (Reads.power hleft.toReads hright.toReads hleftrank hrightrank)

theorem binary {op : BinaryOp} (hop : op ∉ [.power, .floorDivide]) (hleft : Sound left)
    (hright : Sound right) (hleftrank : binaryRank op ≤ left.rank)
    (hrightrank : binaryRank op < right.rank) : Sound (Braced.binary op left right) :=
  Diglot.Sound.infixed (joins_operator _ (by cases op <;> decide)) hleft hright hleftrank
    (Reads.binary hop hleft.toReads hright.toReads hleftrank hrightrank)

theorem compare {op : CompareOp} (hop : op ∉ [.isIn, .notIn]) (hleft : Sound left)
    (hright : Sound right) (hleftrank : compareRank op ≤ left.rank)
    (hrightrank : compareRank op < right.rank) : Sound (Braced.compare op left right) := by
  have hmem : compareSymbol op ∈ operators := by cases op <;> simp at hop <;> decide
  exact Diglot.Sound.infixed (joins_operator _ hmem) hleft hright hleftrank
    (Reads.compare hop hleft.toReads hright.toReads hleftrank hrightrank)

theorem logical {op : BoolOp} (hleft : Sound left) (hright : Sound right)
    (hleftrank : logicalRank op ≤ left.rank) (hrightrank : logicalRank op < right.rank) :
    Sound (Braced.logical op left right) :=
  Diglot.Sound.infixed (joins_operator _ (by cases op <;> decide)) hleft hright hleftrank
    (Reads.logical hleft.toReads hright.toReads hleftrank hrightrank)

theorem ternary (htest : Sound test) (hconsequent : Sound consequent)
    (halternate : Sound alternate) (hrank : 1 < test.rank) :
    Sound (Braced.ternary test consequent alternate) where
  toReads := Reads.ternary htest.toReads hconsequent.toReads halternate.toReads hrank
  lexes := by
    have hcolon := Scanner.LexesAs.join hconsequent.lexes halternate.lexes
      (joins_operator ":" (by decide))
    exact Scanner.LexesAs.join htest.lexes hcolon (joins_operator "?" (by decide))
  opens := htest.opens_append (Nat.le_of_lt hrank) _

end Sound

-- The text of an expression is made into tokens that are read to their end, as its value.
theorem tokenize_written {w : Written} (h : Sound w) :
    ∃ tokens found rest, tokenize (String.ofList w.text) = .ok tokens ∧
      expression (plain tokens).size (plain tokens) = .ok (found, rest) ∧
        rest.isAtEnd = true ∧ placeless found = placeless w.value := by
  have hlexes : scanner.lexes () (w.text ++ []) (w.tokens ++ [.ending]) := h.lexes ends_nil lexes_nil
  rw [List.append_nil, ← String.toList_ofList (l := w.text)] at hlexes
  obtain ⟨tokens, htokenize, htokens⟩ := hlexes .start
  have hexpected : placeless tokens = placeless (w.tokens ++ [.ending]) := by
    rw [← placeless_placeless_tokens, htokens]
  have hwhole := (h.whole (Nat.le_succ _)).reads [] none (by decide)
  rw [List.append_nil] at hwhole
  obtain ⟨found, rest, hread, hend, hfound⟩ :=
    Parser.whole_of_blind hexpected expression_blind hwhole
  exact ⟨tokens, found, rest, htokenize, hread, hend, hfound⟩

end Diglot.Braced
