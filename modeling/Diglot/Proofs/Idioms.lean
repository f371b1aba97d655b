import Diglot.Proofs.Braced.Operators
import Diglot.Proofs.Indented.Operators
import Diglot.Proofs.Indented.Places

namespace Diglot

-- The members that one of the notations writes in its own way.
def idiomNames : List String := ["length", "push", "includes", "at", "slice", "floor", "log"]

-- Whether an expression of the indented notation comes back from the braced one. A sign must not
-- stand in front of a power, nor a `not` in front of an `in`. A computed key is no literal, since
-- the reader makes plain keys of literals.
def Expr.isPortable : Expr → Bool
  | binary .. | logical .. | conditional .. | membership .. | index .. | call .. | list ..
  | boolean .. | null _ => true
  | unary .not (membership _ _ false _) _ => false
  | unary .not .. => true
  | unary _ operand _ => !operand.isPower
  | compare _ [⟨op, _⟩] _ => op.isOrder
  | member _ name _ => Indented.isName name && !idiomNames.contains name
  | dict entries _ => entries.all fun entry =>
      match entry.key with
      | .literal text => text.toList.all Quoted.isPlain
      | .number text => Number.isLiteral text.toList
      | .computed (.string ..) | .computed (.number ..) => false
      | .computed _ => true
  | number literal _ => Number.isLiteral literal.toList
  | string value _ => value.toList.all Quoted.isPlain
  | var name _ => Indented.isName name && !Braced.keywords.contains name
  | _ => false

section Spelling

theorem braced_isWord_of_isWord {text : List Char} (h : Indented.isWord text = true) :
    Braced.isWord text = true := by
  cases text with
  | nil => simp [Indented.isWord] at h
  | cons c more =>
      simp only [Indented.isWord, List.head?_cons, Option.any_some, Bool.and_eq_true,
        List.all_eq_true] at h
      have hdigit : isDigit c = false := isDigit_of_isLetter h.1
      have hparts : ∀ d ∈ c :: more, Braced.isWordPart d = true := fun d hd => by
        simp [Braced.isWordPart, h.2 d hd]
      simp only [Braced.isWord, List.head?_cons, Option.any_some, Bool.and_eq_true,
        Bool.not_eq_true', List.all_eq_true]
      exact ⟨⟨hparts c List.mem_cons_self, hdigit⟩, hparts⟩

theorem isSpelled_of_isPortable (e : Expr) (h : e.isPortable = true) :
    Braced.isSpelled e = true := by
  cases e with
  | compare left comparisons pos =>
      rcases comparisons with _ | ⟨⟨op, right⟩, _ | ⟨second, rest⟩⟩
      · simp [Expr.isPortable] at h
      · simpa [Expr.isPortable, Braced.isSpelled] using h
      · simp [Expr.isPortable] at h
  | member object name pos =>
      simp only [Expr.isPortable, Bool.and_eq_true] at h
      exact braced_isWord_of_isWord (Bool.and_eq_true_iff.mp h.1).1
  | dict entries pos =>
      simp only [Expr.isPortable, Braced.isSpelled, List.all_eq_true] at h ⊢
      intro entry hentry
      have hkey := h entry hentry
      obtain ⟨key, value⟩ := entry
      cases key <;> first | exact hkey | rfl
  | var name pos =>
      simp only [Expr.isPortable, Bool.and_eq_true] at h
      simp only [Braced.isSpelled, Braced.isName, Bool.and_eq_true]
      exact ⟨braced_isWord_of_isWord (Bool.and_eq_true_iff.mp h.1).1, h.2⟩
  | number literal pos => exact h
  | string value pos => exact h
  | slice object start stop step pos => simp [Expr.isPortable] at h
  | construct callee args pos => simp [Expr.isPortable] at h
  | interpolated segments pos => simp [Expr.isPortable] at h
  | template raw pos => simp [Expr.isPortable] at h
  | _ => rfl

-- The base class has no portable name.
theorem isSuper_of_isPortable {e : Expr} (h : e.all Expr.isPortable = true) :
    Braced.isSuper e = false := by
  cases e with
  | call callee args pos =>
      simp only [Expr.all, Bool.and_eq_true] at h
      cases callee with
      | var name pos =>
          have hname : name ≠ "super" := by
            rintro rfl
            simp [Expr.all, Expr.isPortable, Braced.keywords] at h
          simp [Braced.isSuper, Expr.var?, hname]
      | _ => simp [Braced.isSuper, Expr.var?]
  | super pos => simp [Expr.all, Expr.isPortable] at h
  | _ => rfl

end Spelling

-- What the braced text of an expression says can be written in the indented notation, and its
-- text there says the expression again.
structure Carried (e : Expr) : Prop where
  spelled : (Braced.written e).value.all Indented.isSpelled = true
  value : (Indented.written (Braced.written e).value).value.placeless = e.placeless

section Nodes

variable
  {left right test consequent alternate element container object operand e said callee : Expr}
  {pos : Pos} {name : String}

theorem Carried.binary (op : BinaryOp) (hleft : Carried left) (hright : Carried right) :
    Carried (.binary op left right pos) := by
  obtain ⟨hleft, hleftvalue⟩ := hleft
  obtain ⟨hright, hrightvalue⟩ := hright
  by_cases hop : op = .floorDivide
  · subst hop
    have hsaid : (Braced.written (.binary .floorDivide left right pos)).value =
        .call (.member (.var "Math" .start) "floor" .start)
          [.binary .divide (Braced.written left).value (Braced.written right).value .start]
          .start := by
      simp [Braced.written, Braced.ask, Braced.binary, Written.call, Written.member, Written.ofName,
        Written.leaf, Written.infixed]
    have hnames : Indented.isName "floor" = true ∧ Indented.isName "Math" = true := by decide
    constructor
    · simp [hsaid, Expr.all, Expr.listAll, Indented.isSpelledWith, hnames, hleft, hright]
    · simp [hsaid, Indented.written, Expr.var?, Indented.binary, Written.infixed, Expr.placeless,
        hleftvalue, hrightvalue]
  · have hsaid : (Braced.written (.binary op left right pos)).value =
        .binary op (Braced.written left).value (Braced.written right).value .start := by
      cases op <;> first
        | contradiction
        | simp [Braced.written, Braced.binary, Written.group, Written.infixed]
    constructor
    · simp [hsaid, Expr.all, Indented.isSpelledWith, hleft, hright]
    · simp [hsaid, Indented.written, Indented.binary, Written.infixed, Expr.placeless, hleftvalue,
        hrightvalue]

theorem Carried.sign {sign : UnaryOp} (hsign : sign ≠ .not) (h : Carried operand)
    (hpower : operand.isPower = false) : Carried (.unary sign operand pos) := by
  have hsaid : (Braced.written (.unary sign operand pos)).value =
      .unary sign (Braced.written operand).value .start := by
    simp [Braced.written, Braced.prefixed]
  have hapart : ((Indented.enclose Indented.Level.unary (Braced.written operand).value
      (Indented.written (Braced.written operand).value)).value).isPower = false := by
    rw [Written.value_enclose, ← Expr.isPower_placeless, h.value, Expr.isPower_placeless, hpower]
  constructor
  · simp [hsaid, Expr.all, Indented.isSpelledWith, h.spelled]
  · cases sign <;> first
      | contradiction
      | simp [hsaid, Indented.written, Indented.withSign_of_isPower _ hapart, Indented.prefixed,
          Expr.placeless, h.value]

-- The question whether a container includes something is read as a membership.
theorem value_written_includes (container element : Expr) (pos inner : Pos) :
    (Indented.written (.call (.member container "includes" inner) [element] pos)).value =
      .membership (Indented.written element).value (Indented.written container).value false
        .start := by
  simp [Indented.written, Indented.compare, Indented.linkValues, Indented.linked]

theorem Carried.not (h : Carried operand)
    (hmember : ∀ element container pos, operand ≠ .membership element container false pos) :
    Carried (.unary .not operand pos) := by
  have hsaid : (Braced.written (.unary .not operand pos)).value =
      .unary .not (Braced.written operand).value .start := by
    simp [Braced.written, Braced.prefixed]
  constructor
  · simp [hsaid, Expr.all, Indented.isSpelledWith, h.spelled]
  · have hvalue := h.value
    rw [hsaid, Indented.written.eq_def]
    dsimp only
    split
    · rename_i container name _ element _ hcall
      split
      · -- Only a membership is said by such a call.
        rename_i hname
        subst hname
        rw [hcall, value_written_includes] at hvalue
        cases operand with
        | membership element container negated pos =>
            simp only [Expr.placeless, Expr.membership.injEq] at hvalue
            exact absurd rfl (hvalue.2.2.1 ▸ hmember element container pos)
        | _ => simp [Expr.placeless] at hvalue
      · simp [Indented.prefixed, Expr.placeless, hvalue]
    · simp [Indented.prefixed, Expr.placeless, hvalue]

theorem Carried.logical (op : BoolOp) (hleft : Carried left) (hright : Carried right) :
    Carried (.logical op left right pos) := by
  have hsaid : (Braced.written (.logical op left right pos)).value =
      .logical op (Braced.written left).value (Braced.written right).value .start := by
    simp [Braced.written, Braced.logical, Written.infixed]
  constructor
  · simp [hsaid, Expr.all, Indented.isSpelledWith, hleft.spelled, hright.spelled]
  · simp [hsaid, Indented.written, Indented.logical, Written.infixed, Expr.placeless, hleft.value,
      hright.value]

theorem Carried.compare {op : CompareOp} (hop : op.isOrder = true) (hleft : Carried left)
    (hright : Carried right) : Carried (.compare left [⟨op, right⟩] pos) := by
  have hsaid : (Braced.written (.compare left [⟨op, right⟩] pos)).value =
      .compare (Braced.written left).value [⟨op, (Braced.written right).value⟩] .start := by
    simp [Braced.written, Braced.writtenPairs, Braced.conjoined, Braced.value_comparing hop]
  constructor
  · simp [hsaid, Expr.all, Expr.linksAll, Indented.isSpelledWith, hleft.spelled, hright.spelled]
  · rw [hsaid, Indented.value_written_compare (List.cons_ne_nil _ _) (by simpa using hop)]
    simp [Indented.writtenLinks, Indented.linkValues, Expr.placeless, linksPlaceless, hleft.value,
      hright.value]

theorem Carried.conditional (htest : Carried test) (hconsequent : Carried consequent)
    (halternate : Carried alternate) : Carried (.conditional test consequent alternate pos) := by
  have hsaid : (Braced.written (.conditional test consequent alternate pos)).value =
      .conditional (Braced.written test).value (Braced.written consequent).value
        (Braced.written alternate).value .start := by
    simp [Braced.written, Braced.ternary]
  constructor
  · simp [hsaid, Expr.all, Indented.isSpelledWith, htest.spelled, hconsequent.spelled,
      halternate.spelled]
  · simp [hsaid, Indented.written, Indented.ternary, Expr.placeless, htest.value,
      hconsequent.value, halternate.value]

theorem Carried.membership (negated : Bool) (helement : Carried element)
    (hcontainer : Carried container) : Carried (.membership element container negated pos) := by
  have hname : Indented.isName "includes" = true := by decide
  cases negated with
  | false =>
      have hsaid : (Braced.written (.membership element container false pos)).value =
          .call (.member (Braced.written container).value "includes" .start)
            [(Braced.written element).value] .start := by
        simp [Braced.written, Braced.ask, Written.call, Written.member]
      constructor
      · simp [hsaid, Expr.all, Expr.listAll, Indented.isSpelledWith, hname, helement.spelled,
          hcontainer.spelled]
      · simp [hsaid, value_written_includes, Expr.placeless, helement.value, hcontainer.value]
  | true =>
      have hsaid : (Braced.written (.membership element container true pos)).value =
          .unary .not (.call (.member (Braced.written container).value "includes" .start)
            [(Braced.written element).value] .start) .start := by
        simp [Braced.written, Braced.ask, Braced.prefixed, Written.call, Written.member]
      constructor
      · simp [hsaid, Expr.all, Expr.listAll, Indented.isSpelledWith, hname, helement.spelled,
          hcontainer.spelled]
      · simp [hsaid, Indented.written, Indented.compare, Indented.linkValues, Indented.linked,
          Expr.placeless, helement.value, hcontainer.value]

theorem eq_of_negatedLiteral {literal : String} (h : Braced.negatedLiteral? e = some literal) :
    ∃ pos inner, e = .unary .negate (.number literal inner) pos := by
  unfold Braced.negatedLiteral? at h
  split at h
  · cases h
    exact ⟨_, _, rfl⟩
  · cases h

theorem Carried.index {subscript : Expr} (hobject : Carried object)
    (hsubscript : Carried subscript) : Carried (.index object subscript pos) := by
  have hname : Indented.isName "at" = true := by decide
  cases hliteral : Braced.negatedLiteral? subscript with
  | none =>
      have hsaid : (Braced.written (.index object subscript pos)).value =
          .index (Braced.written object).value (Braced.written subscript).value .start := by
        simp [Braced.written, hliteral, Written.index]
      constructor
      · simp [hsaid, Expr.all, Indented.isSpelledWith, hobject.spelled, hsubscript.spelled]
      · simp [hsaid, Indented.written, Written.index, Expr.placeless, hobject.value,
          hsubscript.value]
  | some literal =>
      obtain ⟨outer, inner, rfl⟩ := eq_of_negatedLiteral hliteral
      have hsaid : (Braced.written (.index object (.unary .negate (.number literal inner) outer)
          pos)).value = .call (.member (Braced.written object).value "at" .start)
            [(Braced.written (.unary .negate (.number literal inner) outer)).value] .start := by
        simp [Braced.written, Braced.negatedLiteral?, Braced.ask, Braced.prefixed, Written.call,
          Written.member]
      constructor
      · simp [hsaid, Expr.all, Expr.listAll, Indented.isSpelledWith, hname, hobject.spelled,
          hsubscript.spelled]
      · rw [hsaid]
        simp [Indented.written, Written.index, Expr.placeless, hobject.value, hsubscript.value]

theorem isSuper_placeless (e : Expr) : Braced.isSuper e.placeless = Braced.isSuper e := by
  cases e with
  | call callee args pos =>
      cases args <;> simp [Braced.isSuper, Expr.placeless, exprsPlaceless, Indented.var_placeless]
  | _ => rfl

-- Only the base class is said by its keyword.
theorem Carried.ne_super (h : Carried e) (hsuper : Braced.isSuper e = false) (pos : Pos) :
    (Braced.written e).value ≠ .super pos := by
  intro hsaid
  have hvalue := h.value
  have hbase : (Indented.written (.super pos)).value = .call (.var "super" .start) [] .start := by
    simp [Indented.written, Indented.nullary, Written.call, Written.ofName, Written.leaf]
  rw [hsaid, hbase] at hvalue
  rw [← isSuper_placeless, ← hvalue] at hsuper
  simp [Expr.placeless, exprsPlaceless, Braced.isSuper, Expr.var?] at hsuper

-- A member is read back under its own name.
theorem value_written_member (hsaid : ∀ pos, said ≠ .super pos) (hname : name ∉ idiomNames)
    (pos : Pos) :
    (Indented.written (.member said (Braced.memberName name) pos)).value =
      .member (Indented.written said).value name .start := by
  simp only [idiomNames, List.mem_cons, List.not_mem_nil, or_false, not_or] at hname
  rw [Indented.written.eq_def]
  dsimp only
  split
  · exact absurd rfl (hsaid _)
  · by_cases happend : name = "append"
    · simp [happend, Braced.memberName, Written.member]
    · simp [happend, hname, Braced.memberName, Written.member]

theorem Carried.member (h : Carried object) (hsuper : Braced.isSuper object = false)
    (hname : Indented.isName name = true) (hidiom : name ∉ idiomNames) :
    Carried (.member object name pos) := by
  have hsaid : (Braced.written (.member object name pos)).value =
      .member (Braced.written object).value (Braced.memberName name) .start := by
    simp [Braced.written, hsuper, Written.member]
  have hspelled : Indented.isName (Braced.memberName name) = true := by
    unfold Braced.memberName
    split
    · decide
    · exact hname
  constructor
  · simp [hsaid, Expr.all, Indented.isSpelledWith, hspelled, h.spelled]
  · rw [hsaid, value_written_member (h.ne_super hsuper) hidiom]
    simp [Expr.placeless, h.value]

section Lists

variable {exprs : List Expr}

theorem spelled_all (h : ∀ e ∈ exprs, Carried e) :
    Expr.listAll Indented.isSpelled ((Braced.writtenAll exprs).map Written.value) = true := by
  induction exprs with
  | nil => rfl
  | cons first rest ih =>
      obtain ⟨hfirst, hrest⟩ := List.forall_mem_cons.mp h
      simp [Braced.writtenAll, Expr.listAll, hfirst.spelled, ih hrest]

theorem value_all (h : ∀ e ∈ exprs, Carried e) :
    exprsPlaceless ((Indented.writtenAll ((Braced.writtenAll exprs).map Written.value)).map
      Written.value) = exprsPlaceless exprs := by
  induction exprs with
  | nil => rfl
  | cons first rest ih =>
      obtain ⟨hfirst, hrest⟩ := List.forall_mem_cons.mp h
      simp [Braced.writtenAll, Indented.writtenAll, exprsPlaceless, hfirst.value, ih hrest]

theorem Carried.list (h : ∀ e ∈ exprs, Carried e) : Carried (.list exprs pos) := by
  constructor
  · simp [Braced.written, Written.list, Expr.all, Indented.isSpelledWith, spelled_all h]
  · simp [Braced.written, Indented.written, Written.list, Expr.placeless, value_all h]

end Lists

-- A call that is no idiom is read back as a call.
theorem value_written_call (hsuper : ∀ pos, said ≠ .super pos)
    (hname : ∀ object name pos, said = .member object name pos →
      name ∉ ["includes", "at", "slice", "floor", "log"]) (args : List Expr) (pos : Pos) :
    (Indented.written (.call said args pos)).value =
      .call (Indented.written said).value ((Indented.writtenAll args).map Written.value)
        .start := by
  rw [Indented.written.eq_def]
  dsimp only
  split
  · exact absurd rfl (hsuper _)
  · rename_i object name _
    have hname := hname object name _ rfl
    simp only [List.mem_cons, List.not_mem_nil, or_false, not_or] at hname
    split <;> simp_all [Written.call]
  · simp [Written.call]

-- The name of a called member is none of an idiom, since it is the one that is read back.
theorem Carried.name_not_idiom (h : Carried callee) (hportable : callee.all Expr.isPortable = true)
    {inner : Pos} (hsaid : (Braced.written callee).value = .member said name inner) :
    name ∉ ["includes", "at", "slice", "floor", "log"] := by
  intro hidiom
  have hvalue := h.value
  have hread : ∃ found, (Indented.written (.member said name inner)).value =
      .member found name .start := by
    simp only [List.mem_cons, List.not_mem_nil, or_false] at hidiom
    rw [Indented.written.eq_def]
    dsimp only
    split
    · exact ⟨_, rfl⟩
    · rcases hidiom with rfl | rfl | rfl | rfl | rfl <;> exact ⟨_, rfl⟩
  obtain ⟨found, hread⟩ := hread
  rw [hsaid, hread] at hvalue
  cases callee with
  | member object other pos =>
      simp only [Expr.placeless, Expr.member.injEq] at hvalue
      obtain ⟨-, rfl, -⟩ := hvalue
      simp only [Expr.all, Expr.isPortable, Bool.and_eq_true, Bool.not_eq_true',
        List.contains_eq_mem, decide_eq_false_iff_not] at hportable
      refine hportable.1.2 ?_
      revert hidiom
      simp only [idiomNames, List.mem_cons, List.not_mem_nil, or_false]
      exact fun h => by rcases h with rfl | rfl | rfl | rfl | rfl <;> simp
  | _ => simp [Expr.placeless] at hvalue

theorem Carried.call {args : List Expr} (h : Carried callee)
    (hportable : callee.all Expr.isPortable = true) (hargs : ∀ arg ∈ args, Carried arg) :
    Carried (.call callee args pos) := by
  have hspelled := spelled_all hargs
  have hvalues := value_all hargs
  have hsuper := h.ne_super (isSuper_of_isPortable hportable)
  have hcalled : (Braced.written (.call callee args pos)).value =
      .call (Braced.written callee).value ((Braced.writtenAll args).map Written.value) .start →
        Carried (.call callee args pos) := by
    intro hsaid
    constructor
    · simp [hsaid, Expr.all, Indented.isSpelledWith, h.spelled, hspelled]
    · rw [hsaid, value_written_call hsuper fun _ _ _ => h.name_not_idiom hportable]
      simp [Expr.placeless, h.value, hvalues]
  cases callee with
  | var name inner =>
      simp only [Expr.all, Expr.isPortable, Bool.and_eq_true] at hportable
      have hprint : name ≠ "print" := by
        rintro rfl
        exact absurd hportable.1 (by decide)
      by_cases hupper : Braced.startsUpper name = true
      · have hsaid : (Braced.written (.call (.var name inner) args pos)).value =
            .construct (.var name .start) ((Braced.writtenAll args).map Written.value) .start := by
          simp [Braced.written, hprint, hupper, Braced.construct]
        constructor
        · simp [hsaid, Expr.all, Indented.isSpelledWith, hportable.1, hspelled]
        · simp [hsaid, Indented.written, Written.call, Written.ofName, Written.leaf,
            Expr.placeless, hvalues]
      · exact hcalled (by simp [Braced.written, hprint, hupper, Written.call])
  | member object name inner =>
      simp only [Expr.all, Bool.and_eq_true] at hportable
      have hobject := isSuper_of_isPortable hportable.2
      exact hcalled (by simp [Braced.written, hobject, Written.call])
  | _ => exact hcalled (by rw [Braced.written.eq_def]; simp [Written.call])

section Entries

-- The entries that the braced text of a dict says.
def saidEntries (entries : List (DictEntry Expr)) : List (DictEntry Expr) :=
  (Braced.writtenEntries entries).map fun entry => ⟨Braced.keyValue entry.key, entry.value.value⟩

def saidKey : DictKey Expr → DictKey Expr
  | .literal text => .literal text
  | .number text => .number text
  | .computed key => .computed (Braced.written key).value

theorem saidEntries_cons (key : DictKey Expr) (value : Expr) (rest : List (DictEntry Expr)) :
    saidEntries (⟨key, value⟩ :: rest) =
      ⟨saidKey key, (Braced.written value).value⟩ :: saidEntries rest := by
  cases key <;> rfl

variable {entries : List (DictEntry Expr)}

theorem spelled_entries (hkeys : (Expr.dict entries pos).isPortable = true)
    (h : ∀ e ∈ entries.flatMap (·.exprs), Carried e) :
    Indented.isSpelled (.dict (saidEntries entries) .start) = true ∧
      Expr.entriesAll Indented.isSpelled (saidEntries entries) = true := by
  induction entries with
  | nil => exact ⟨rfl, rfl⟩
  | cons entry rest ih =>
      obtain ⟨key, value⟩ := entry
      obtain ⟨hentry, hrest⟩ := List.forall_mem_append.mp h
      simp only [Expr.isPortable, List.all_cons, Bool.and_eq_true] at hkeys
      obtain ⟨hspelled, hall⟩ := ih hkeys.2 hrest
      simp only [Indented.isSpelledWith] at hspelled
      simp only [saidEntries_cons, Indented.isSpelledWith, List.all_cons, hspelled, Bool.and_true]
      cases key with
      | literal text =>
          exact ⟨rfl, by simp [saidKey, Expr.entriesAll, hall, (hentry _ (.head _)).spelled]⟩
      | number text =>
          exact ⟨hkeys.1, by simp [saidKey, Expr.entriesAll, hall, (hentry _ (.head _)).spelled]⟩
      | computed key =>
          exact ⟨rfl, by simp [saidKey, Expr.entriesAll, hall, (hentry _ (.head _)).spelled,
            (hentry _ (.tail _ (.head _))).spelled]⟩

-- A key that is no literal is not read back as one.
theorem dictKey_of_placeless {key found : Expr} (h : found.placeless = key.placeless)
    (hstring : ∀ value pos, key ≠ .string value pos)
    (hnumber : ∀ literal pos, key ≠ .number literal pos) :
    Indented.dictKey found = .computed found := by
  cases found with
  | string value pos => cases key <;> simp_all [Expr.placeless]
  | number literal pos => cases key <;> simp_all [Expr.placeless]
  | _ => rfl

theorem value_entries (hkeys : (Expr.dict entries pos).isPortable = true)
    (h : ∀ e ∈ entries.flatMap (·.exprs), Carried e) :
    entriesPlaceless ((Indented.writtenEntries (saidEntries entries)).map fun entry =>
      ⟨Indented.dictKey entry.1.value, entry.2.value⟩) = entriesPlaceless entries := by
  induction entries with
  | nil => rfl
  | cons entry rest ih =>
      obtain ⟨key, value⟩ := entry
      obtain ⟨hentry, hrest⟩ := List.forall_mem_append.mp h
      simp only [Expr.isPortable, List.all_cons, Bool.and_eq_true] at hkeys
      have hvalues := ih hkeys.2 hrest
      rw [saidEntries_cons]
      cases key with
      | literal text =>
          have hkey : Indented.dictKey (Indented.quoted text).value = .literal text := by
            rw [Indented.quoted_of_isPlain hkeys.1]
            rfl
          simp [saidKey, Indented.writtenEntries, hkey, entriesPlaceless, hvalues,
            (hentry _ (.head _)).value]
      | number text =>
          have hkey : Indented.dictKey (Written.ofNumber text).value = .number text := rfl
          simp [saidKey, Indented.writtenEntries, hkey, entriesPlaceless, hvalues,
            (hentry _ (.head _)).value]
      | computed key =>
          have hvalue := (hentry _ (.head _)).value
          have hkey := dictKey_of_placeless hvalue (by rintro _ _ rfl; simp at hkeys)
            (by rintro _ _ rfl; simp at hkeys)
          simp [saidKey, Indented.writtenEntries, hkey, entriesPlaceless, hvalues, hvalue,
            (hentry _ (.tail _ (.head _))).value]

theorem Carried.dict (hkeys : (Expr.dict entries pos).isPortable = true)
    (h : ∀ e ∈ entries.flatMap (·.exprs), Carried e) : Carried (.dict entries pos) := by
  have hsaid : (Braced.written (.dict entries pos)).value = .dict (saidEntries entries) .start := by
    simp [Braced.written, Braced.dict, saidEntries]
  obtain ⟨hspelled, hall⟩ := spelled_entries hkeys h
  constructor
  · simp [hsaid, Expr.all, hspelled, hall]
  · simp [hsaid, Indented.written, Indented.dict, Expr.placeless, value_entries hkeys h]

end Entries

end Nodes

-- Every portable expression is carried over and back.
theorem carried (e : Expr) (h : e.all Expr.isPortable = true) : Carried e := by
  induction e using Expr.children_induct with
  | step e ih =>
    obtain ⟨hself, hchildren⟩ := Expr.all_iff.mp h
    replace ih := fun child hchild => ih child hchild (hchildren child hchild)
    cases e with
    | binary op => exact .binary op (ih _ (.head _)) (ih _ (.tail _ (.head _)))
    | unary op operand _ =>
        cases op with
        | negate | plus =>
            exact (ih operand (.head _)).sign (by simp) (by simpa [Expr.isPortable] using hself)
        | not =>
            refine (ih operand (.head _)).not ?_
            rintro element container pos rfl
            simp [Expr.isPortable] at hself
    | logical op => exact .logical op (ih _ (.head _)) (ih _ (.tail _ (.head _)))
    | compare left comparisons _ =>
        rcases comparisons with _ | ⟨⟨op, right⟩, _ | ⟨second, rest⟩⟩
        · simp [Expr.isPortable] at hself
        · exact .compare hself (ih left (.head _)) (ih right (.tail _ (.head _)))
        · simp [Expr.isPortable] at hself
    | conditional =>
        exact .conditional (ih _ (.head _)) (ih _ (.tail _ (.head _)))
          (ih _ (.tail _ (.tail _ (.head _))))
    | membership _ _ negated =>
        exact .membership negated (ih _ (.head _)) (ih _ (.tail _ (.head _)))
    | index => exact .index (ih _ (.head _)) (ih _ (.tail _ (.head _)))
    | member object name _ =>
        simp only [Expr.isPortable, Bool.and_eq_true, Bool.not_eq_true', List.contains_eq_mem,
          decide_eq_false_iff_not] at hself
        exact (ih object (.head _)).member (isSuper_of_isPortable (hchildren object (.head _)))
          hself.1 hself.2
    | call callee args _ =>
        exact (ih callee (.head _)).call (hchildren callee (.head _)) fun arg harg =>
          ih arg (.tail _ harg)
    | list => exact .list ih
    | dict => exact .dict hself ih
    | number literal _ =>
        constructor
        · exact h
        · simp [Braced.written, Indented.written, Written.ofNumber, Written.leaf, Expr.placeless]
    | string value _ =>
        constructor
        · rfl
        · simp [Braced.written, Indented.written, Indented.quoted_of_isPlain hself,
            Written.ofString, Written.leaf, Expr.placeless]
    | boolean | null =>
        constructor
        · simp [Braced.written, Written.ofKeyword, Written.leaf, Expr.all, Indented.isSpelledWith]
        · simp [Braced.written, Indented.written, Written.ofKeyword, Written.leaf, Expr.placeless]
    | var name _ =>
        simp only [Expr.isPortable, Bool.and_eq_true] at hself
        constructor
        · exact hself.1
        · simp [Braced.written, Indented.written, Written.ofName, Written.leaf, Expr.placeless]
    | _ => cases hself

-- A portable expression survives the way through the braced notation: its braced text is read to
-- its end, and so is the indented text of what was read, as the expression itself.
theorem parseWhole_there_and_back {e : Expr} (h : e.all Expr.isPortable = true) :
    ∃ carried found,
      parseWhole .javaScript (Braced.writeExpr false e) = .ok (carried, true) ∧
        parseWhole .pythonScript (Indented.writeExpr carried) = .ok (found, true) ∧
        placeless found = placeless e := by
  obtain ⟨there, hthere, hsaid⟩ :=
    Braced.parseWhole_writeExpr (Expr.all_imp isSpelled_of_isPortable e h)
  obtain ⟨hspelled, hvalue⟩ := carried e h
  obtain ⟨found, hback, hfound⟩ := Indented.parseWhole_writeExpr hspelled
  have htext : Indented.writeExpr there = Indented.writeExpr (Braced.written e).value := by
    rw [← Indented.writeExpr_placeless there, ← Indented.writeExpr_placeless (Braced.written e).value]
    exact congrArg Indented.writeExpr hsaid
  exact ⟨there, found, hthere, htext ▸ hback, hfound.trans hvalue⟩

-- `-xs[-1] // 2 not in {"k": [Point(a), ys.append]}`.
def idioms : Expr :=
  .membership
    (.binary .floorDivide
      (.unary .negate
        (.index (.var "xs" .start) (.unary .negate (.number "1" .start) .start) .start) .start)
      (.number "2" .start) .start)
    (.dict [⟨.literal "k", .list [.call (.var "Point" .start) [.var "a" .start] .start,
      .member (.var "ys" .start) "append" .start] .start⟩] .start) true .start

theorem parseWhole_there_and_back_idioms :
    idioms.all Expr.isPortable = true ∧ ∃ carried found,
      parseWhole .javaScript (Braced.writeExpr false idioms) = .ok (carried, true) ∧
        parseWhole .pythonScript (Indented.writeExpr carried) = .ok (found, true) ∧
        placeless found = placeless idioms := by
  have hportable : idioms.all Expr.isPortable = true := by decide
  exact ⟨hportable, parseWhole_there_and_back hportable⟩

end Diglot
