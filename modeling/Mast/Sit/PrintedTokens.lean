import Mast.Sit.Lexemes
import Mast.Sit.Printer

/-!
# The tokens of a printed tree

The lexer reads a printed tree as the tokens of its nodes, one after another. Line feeds and indents give no token.
-/

namespace Mast

namespace Sit

open BinaryVector (Text decimal binaryDigits hexDigits Separators PlainFiller)
open Interleaving MaximalMunch

/-! ### Trees that can be printed

Their names are words, and their numbers and vectors are those the program can hold.
-/

def RegisterFields.Printable (fields : RegisterFields) : Prop :=
  IsWord fields.name ∧ fields.bypassSequence.Stored

/-- The register of a selector is one of those that have these names. -/
def ParentKind.Printable (names : List Text) : ParentKind Selector → Prop
  | .accessInterface protocol => ∀ kindName ∈ protocol, IsWord kindName
  | .chain => True
  | .linker selector =>
    selector.associatedRegister < names.length ∧ selector.selectablePaths < uint32Size

def ParentFields.Printable (names : List Text) (fields : ParentFields Selector) : Prop :=
  IsWord fields.name ∧ fields.kind.Printable names

instance (v : BinaryVector) : Decidable v.Stored :=
  decidable_of_iff (v.ExactBytes ∧ v.usedBits < uint32Size)
    ⟨fun h => ⟨h.1, h.2⟩, fun h => ⟨h.exactBytes, h.usedBits_lt⟩⟩

instance (fields : RegisterFields) : Decidable fields.Printable :=
  inferInstanceAs (Decidable (_ ∧ _))

instance (names : List Text) : (kind : ParentKind Selector) → Decidable (kind.Printable names)
  | .accessInterface protocol => inferInstanceAs (Decidable (∀ kindName ∈ protocol, IsWord kindName))
  | .chain => inferInstanceAs (Decidable True)
  | .linker _ => inferInstanceAs (Decidable (_ ∧ _))

instance (names : List Text) (fields : ParentFields Selector) : Decidable (fields.Printable names) :=
  inferInstanceAs (Decidable (_ ∧ _))

structure Nodes.Printable (names : List Text) (nodes : Nodes Selector) : Prop where
  registers : ∀ fields ∈ nodes.registers, fields.Printable
  parents : ∀ parent ∈ nodes.parents, parent.1.Printable names

/-! ### Tokens -/

def keywordOf {σ : Type} : ParentKind σ → Keyword
  | .accessInterface _ => .accessInterface
  | .chain => .chain
  | .linker _ => .linker

def noteTokens (names : List Text) : ParentKind Selector → List Token
  | .accessInterface protocol => [.word (Printer.protocolNote protocol)]
  | .chain => []
  | .linker selector =>
    [.word selector.kindName, .word (names.getD selector.associatedRegister []),
      .decimalLiteral selector.selectablePaths]

def openingToken {σ : Type} : ParentKind σ → Token
  | .chain => .startHierarchy
  | _ => .leftParenthesis

def closingToken {σ : Type} : ParentKind σ → Token
  | .chain => .endHierarchy
  | _ => .rightParenthesis

def bypassString (fields : RegisterFields) : Text :=
  '"' :: fields.bypassSequence.dataAsMixString 8 Separators.default ++ ['"']

def registerTokens (fields : RegisterFields) : List Token :=
  .keyword .register :: .word fields.name :: .decimalLiteral fields.bypassSequence.usedBits ::
    ((if fields.holdValue then [.keyword .holdValue] else []) ++
      [.keyword .bypass, .semicolon, .quotedString (bypassString fields)])

def headerTokens (names : List Text) (fields : ParentFields Selector) : List Token :=
  .keyword (keywordOf fields.kind) :: .word fields.name :: (noteTokens names fields.kind ++
    if fields.ignoreForNodePath then [.keyword .transparent] else [])

def Nodes.tokens (names : List Text) : Nodes Selector → List Token
  | .nil => []
  | .register fields nextSibling => registerTokens fields ++ nextSibling.tokens names
  | .parent fields firstChild nextSibling =>
    headerTokens names fields ++ openingToken fields.kind :: (firstChild.tokens names ++
      closingToken fields.kind :: nextSibling.tokens names)

/-! ### Pieces -/

theorem IsWord.no_space {word : Text} (hword : IsWord word) : ' ' ∉ word := by
  have hrepeated : ∀ {text : Text}, repeatedLength Char.isAlphanum text = text.length → ' ' ∉ text := by
    intro text hlength
    apply repeated_induction (motive := (' ' ∉ ·)) (by decide) _ _ _ hlength
    · exact List.not_mem_nil
    · intro c text hc ih
      rw [List.mem_cons, not_or]
      exact ⟨(ne_of_alphanum hc (by decide)).symm, ih⟩
    · intro d text hd ih
      simp only [List.mem_cons, not_or]
      exact ⟨by decide, (ne_of_alphanum hd (by decide)).symm, ih⟩
  obtain ⟨hne, hlength, -⟩ := hword
  obtain ⟨c, text, rfl⟩ := List.exists_cons_of_ne_nil hne
  have halpha : c.isAlpha = true := by
    by_contra hno
    rw [wordLength_zero (by simpa using hno)] at hlength
    exact absurd hlength (by simp)
  rw [wordLength, groupedLength, if_pos halpha, List.length_cons] at hlength
  rw [List.mem_cons, not_or]
  refine ⟨?_, hrepeated (by omega)⟩
  rintro rfl
  exact absurd halpha (by decide)

theorem streamNodeName_word {name : Text} (hname : IsWord name) :
    Printer.streamNodeName name = ' ' :: name := by
  rw [Printer.streamNodeName, if_neg hname.no_space]

theorem stopsAt_blank (text : Text) : StopsAt Delimiter (' ' :: text) :=
  .cons ⟨by decide, by decide⟩ text

theorem stopsAt_newLine (text : Text) : StopsAt Delimiter ('\n' :: text) :=
  .cons ⟨by decide, by decide⟩ text

theorem lexesTo_space {piece : Text} {tokens : List Token} (h : LexesTo piece tokens) :
    LexesTo (' ' :: piece) tokens := by
  exact lexesTo_after_blanks (fun c hc => .inl (List.mem_singleton.mp hc)) h

theorem lexesTo_newLine (depth : Nat) {piece : Text} {tokens : List Token}
    (h : LexesTo piece tokens) : LexesTo ('\n' :: Printer.streamDepth depth ++ piece) tokens := by
  refine lexesTo_after_blanks (fun c hc => ?_) h
  rcases List.mem_cons.mp hc with rfl | hspace
  · exact .inr rfl
  · exact .inl (List.eq_of_mem_replicate hspace)

/-! ### Values -/

theorem hexDigit_content {c : Char} (hc : (BinaryVector.hexDigitValue c).isSome) :
    isStringContent c = true := by
  unfold BinaryVector.hexDigitValue at hc
  split at hc
  all_goals first | rfl | exact absurd hc (by decide)

theorem interleaved_content {digits body : Text} (hbody : Interleaved PlainFiller digits body)
    (hdigits : ∀ c ∈ digits, isStringContent c = true) : ∀ c ∈ body, isStringContent c = true := by
  intro c hc
  rcases hbody.mem hc with hdigit | rfl | rfl
  · exact hdigits c hdigit
  · rfl
  · rfl

theorem binaryDigits_content (l : List Bool) : ∀ c ∈ binaryDigits l, isStringContent c = true := by
  intro c hc
  rcases BinaryVector.mem_binaryDigits hc with rfl | rfl <;> rfl

theorem hexDigits_content (l : List Bool) : ∀ c ∈ hexDigits l, isStringContent c = true :=
  fun _ hc => hexDigit_content (BinaryVector.mem_hexDigits hc)

/-- What is printed for a vector can stand in a quoted string. -/
theorem mixString_content {v : BinaryVector} (hv : v.ExactBytes) (hexStyleThreshold : Nat) :
    ∀ c ∈ v.dataAsMixString hexStyleThreshold .default, isStringContent c = true := by
  have hbase : ∀ c ∈ "0b".toList ++ "0x".toList ++ "/b".toList, isStringContent c = true :=
    List.all_eq_true.mp (by decide +kernel)
  simp only [List.mem_append] at hbase
  unfold BinaryVector.dataAsMixString
  split_ifs with hnone hsmall hincomplete
  · simp
  · obtain ⟨body, htext, hbody⟩ := BinaryVector.dataAsBinaryString_body hv .default true
    have hcontent := interleaved_content (hbody.mono fun _ => BinaryVector.Separators.default_filler)
      (binaryDigits_content _)
    intro c hc
    rw [htext, if_pos rfl, List.mem_append] at hc
    rcases hc with hc | hc
    · exact hbase c (.inl (.inl hc))
    · exact hcontent c hc
  · obtain ⟨body, htext, hbody⟩ := BinaryVector.dataAsHexString_dropLast hv hincomplete
      (fun c hc => (BinaryVector.Separators.default_filler hc).not_hexDigit) true
    have hcontent := interleaved_content (hbody.mono fun _ => BinaryVector.Separators.default_filler)
      (hexDigits_content _)
    intro c hc
    simp only [htext, BinaryVector.lastQuadBits_eq hv hincomplete, if_true, List.mem_append] at hc
    rcases hc with ((hc | hc) | hc) | hc
    · exact hbase c (.inl (.inr hc))
    · exact hcontent c hc
    · exact hbase c (.inr hc)
    · exact binaryDigits_content _ c hc
  · obtain ⟨body, htext, hbody⟩ := BinaryVector.dataAsHexString_body hv .default true
    have hcontent := interleaved_content (hbody.mono fun _ => BinaryVector.Separators.default_filler)
      (hexDigits_content _)
    intro c hc
    rw [htext, if_pos rfl, List.mem_append] at hc
    rcases hc with hc | hc
    · exact hbase c (.inl (.inr hc))
    · exact hcontent c hc

/-! ### Nodes -/

theorem lexesTo_then {piece piece' : Text} {tokens tokens' : List Token} (h : LexesTo piece tokens)
    (h' : LexesTo piece' tokens') : LexesTo (piece ++ ' ' :: piece') (tokens ++ tokens') :=
  h.append (stopsAt_blank _) (lexesTo_space h')

theorem lexesTo_header {type name notes : Text} {keyword : Keyword} {tokens : List Token}
    (first : Bool) (depth : Nat) (htype : (type, keyword) ∈ keywordsTable) (hname : IsWord name)
    (hnotes : LexesTo notes tokens) :
    LexesTo (Printer.streamNodeHeader first depth type name notes)
      (.keyword keyword :: .word name :: tokens) := by
  have hindent : ∀ c ∈ (if first then [] else ['\n']) ++ Printer.streamDepth depth,
      c = ' ' ∨ c = '\n' := by
    intro c hc
    rcases List.mem_append.mp hc with hline | hspace
    · split_ifs at hline
      · exact absurd hline List.not_mem_nil
      · exact .inr (List.mem_singleton.mp hline)
    · exact .inl (List.eq_of_mem_replicate hspace)
  have hnamed := lexesTo_then (lexesTo_keyword _ htype) (lexesTo_word hname)
  unfold Printer.streamNodeHeader
  rw [streamNodeName_word hname]
  by_cases hnone : notes = []
  · have htokens : tokens = [] := by
      rw [← hnotes.scan_eq, hnone]
      rfl
    rw [if_pos hnone, htokens, List.append_nil, List.append_assoc _ type]
    exact lexesTo_after_blanks hindent hnamed
  · have hall := lexesTo_then hnamed hnotes
    rw [if_neg hnone, List.append_assoc _ type, List.append_assoc _ (type ++ ' ' :: name)]
    exact lexesTo_after_blanks hindent hall

theorem keywordOf_mem {σ : Type} (kind : ParentKind σ) :
    (Printer.typeOf kind, keywordOf kind) ∈ keywordsTable := by
  have hentries : ("ACCESS_INTERFACE".toList, .accessInterface) ∈ keywordsTable ∧
      ("CHAIN".toList, .chain) ∈ keywordsTable ∧ ("LINKER".toList, .linker) ∈ keywordsTable := by
    decide
  cases kind with
  | accessInterface _ => exact hentries.1
  | chain => exact hentries.2.1
  | linker _ => exact hentries.2.2

theorem kindName_isWord (selector : Selector) : IsWord selector.kindName := by
  unfold Selector.kindName
  cases selector.kind <;> decide +kernel

theorem protocolNote_isWord {protocol : Option Text} (hprotocol : ∀ kindName ∈ protocol, IsWord kindName) :
    IsWord (Printer.protocolNote protocol) := by
  cases protocol with
  | none => decide +kernel
  | some kindName => exact hprotocol kindName rfl

theorem lexesTo_notes {names : List Text} (hnames : ∀ name ∈ names, IsWord name)
    {kind : ParentKind Selector} (hkind : kind.Printable names) :
    LexesTo (Printer.notesOf names kind) (noteTokens names kind) := by
  cases kind with
  | accessInterface protocol => exact lexesTo_word (protocolNote_isWord hkind)
  | chain => exact .nil
  | linker selector =>
    obtain ⟨hregister, hpaths⟩ := hkind
    have hname : IsWord (names.getD selector.associatedRegister []) := by
      have hentry : names.getD selector.associatedRegister [] =
          names[selector.associatedRegister] := by
        simp [hregister]
      rw [hentry]
      exact hnames _ (List.getElem_mem hregister)
    simp only [Printer.notesOf, noteTokens, streamNodeName_word hname]
    exact lexesTo_then (lexesTo_then (lexesTo_word (kindName_isWord selector)) (lexesTo_word hname))
      (lexesTo_decimal hpaths)

theorem lexesTo_register (first : Bool) (depth : Nat) {fields : RegisterFields}
    (hfields : fields.Printable) :
    LexesTo (Printer.visitRegister first depth fields) (registerTokens fields) := by
  obtain ⟨hname, hstored⟩ := hfields
  have hregister : ("REGISTER".toList, .register) ∈ keywordsTable := by decide
  have hheader := lexesTo_header first depth hregister hname .nil
  have hsize := lexesTo_then hheader (lexesTo_decimal hstored.usedBits_lt)
  have hquoted := lexesTo_quoted (mixString_content hstored.exactBytes 8)
  have hbypass : LexesTo ("Bypass".toList ++ ([':'] ++ ' ' :: bypassString fields))
      [.keyword .bypass, .semicolon, .quotedString (bypassString fields)] := by
    have hentry : (':', .semicolon) ∈ punctuations := by decide
    have hcolon := lexesTo_then (lexesTo_punctuation hentry) hquoted
    exact (lexesTo_keyword ("Bypass".toList, .bypass) (by decide)).append
      (.cons ⟨by decide, by decide⟩ _) hcolon
  cases hhold : fields.holdValue with
  | false =>
    have hall := lexesTo_then hsize hbypass
    simpa [Printer.visitRegister, registerTokens, bypassString, hhold] using hall
  | true =>
    have hkeyword := lexesTo_keyword ("Hold_value".toList, .holdValue) (by decide)
    have hall := lexesTo_then (lexesTo_then hsize hkeyword) hbypass
    simpa [Printer.visitRegister, registerTokens, bypassString, hhold] using hall

theorem lexesTo_parent {names : List Text} (hnames : ∀ name ∈ names, IsWord name) (first : Bool)
    (depth : Nat) {fields : ParentFields Selector} (hfields : fields.Printable names)
    {children : Text} {tokens : List Token} (hchildren : LexesTo children tokens)
    (hline : StopsAt Delimiter children) :
    LexesTo (Printer.streamParentNode names first depth fields children)
      (headerTokens names fields ++ openingToken fields.kind :: (tokens ++
        [closingToken fields.kind])) := by
  obtain ⟨hname, hkind⟩ := hfields
  have hheader := lexesTo_header first depth (keywordOf_mem fields.kind) hname
    (lexesTo_notes hnames hkind)
  have hopening : LexesTo [Printer.openingBracket fields.kind] [openingToken fields.kind] := by
    apply lexesTo_punctuation
    cases fields.kind <;> simp [Printer.openingBracket, openingToken, punctuations]
  have hclosing : LexesTo [Printer.closingBracket fields.kind] [closingToken fields.kind] := by
    apply lexesTo_punctuation
    cases fields.kind <;> simp [Printer.closingBracket, closingToken, punctuations]
  have hend := hchildren.append (stopsAt_newLine _) (lexesTo_newLine depth hclosing)
  have hbody := hopening.append (hline.append (stopsAt_newLine _)) hend
  have hlist := lexesTo_newLine depth hbody
  cases hignored : fields.ignoreForNodePath with
  | false =>
    have hall := hheader.append (stopsAt_newLine _) hlist
    simpa [Printer.streamParentNode, headerTokens, hignored] using hall
  | true =>
    have hkeyword := lexesTo_keyword ("NOT_IN_PATH".toList, .transparent) (by decide)
    have hall := (lexesTo_then hheader hkeyword).append (stopsAt_newLine _) hlist
    simpa [Printer.streamParentNode, headerTokens, hignored] using hall

theorem printChildren_stops (names : List Text) (depth : Nat) (nodes : Nodes Selector) :
    StopsAt Delimiter (Printer.printChildren names depth nodes) := by
  cases nodes with
  | nil => exact .nil
  | register fields nextSibling => exact stopsAt_newLine _
  | parent fields firstChild nextSibling => exact stopsAt_newLine _

section Printable

variable {names : List Text} {nextSibling : Nodes Selector}

theorem Nodes.Printable.register {fields : RegisterFields}
    (h : (Nodes.register fields nextSibling).Printable names) :
    fields.Printable ∧ nextSibling.Printable names :=
  ⟨h.registers fields List.mem_cons_self,
    fun f hf => h.registers f (List.mem_cons_of_mem _ hf), h.parents⟩

theorem Nodes.Printable.parent {fields : ParentFields Selector} {firstChild : Nodes Selector}
    (h : (Nodes.parent fields firstChild nextSibling).Printable names) :
    fields.Printable names ∧ firstChild.Printable names ∧ nextSibling.Printable names := by
  refine ⟨h.parents _ List.mem_cons_self, ⟨fun f hf => ?_, fun p hp => ?_⟩, fun f hf => ?_,
    fun p hp => ?_⟩
  · exact h.registers f (List.mem_append_left _ hf)
  · exact h.parents p (List.mem_cons_of_mem _ (List.mem_append_left _ hp))
  · exact h.registers f (List.mem_append_right _ hf)
  · exact h.parents p (List.mem_cons_of_mem _ (List.mem_append_right _ hp))

theorem lexesTo_children (hnames : ∀ name ∈ names, IsWord name) (depth : Nat)
    {nodes : Nodes Selector} (hnodes : nodes.Printable names) :
    LexesTo (Printer.printChildren names depth nodes) (nodes.tokens names) := by
  induction nodes generalizing depth with
  | nil => exact .nil
  | register fields nextSibling ih =>
    obtain ⟨hfields, hnext⟩ := hnodes.register
    exact (lexesTo_register false depth hfields).append (printChildren_stops names depth _)
      (ih depth hnext)
  | parent fields firstChild nextSibling ihChild ihNext =>
    obtain ⟨hfields, hchild, hnext⟩ := hnodes.parent
    have hparent := lexesTo_parent hnames false depth hfields (ihChild (depth + 1) hchild)
      (printChildren_stops names (depth + 1) firstChild)
    have hall := hparent.append (printChildren_stops names depth _) (ihNext depth hnext)
    simpa [Nodes.tokens, Printer.printChildren] using hall

end Printable

/-- The names that a printed tree refers to. -/
def Node.registerNames {σ : Type} (root : Node σ) : List Text := root.registers.map (·.name)

def Node.Printable (root : Node Selector) : Prop := (root.before .nil).Printable root.registerNames

theorem Node.Printable.names_words {root : Node Selector} (hroot : root.Printable) :
    ∀ name ∈ root.registerNames, IsWord name := by
  intro name hname
  obtain ⟨fields, hfields, rfl⟩ := List.mem_map.mp hname
  exact (hroot.registers fields hfields).1

/-- The lexer reads a printed tree as the tokens of its nodes. -/
theorem lex_makeSit {root : Node Selector} (hroot : root.Printable) :
    lex (makeSit root) = (root.before .nil).tokens root.registerNames := by
  cases root with
  | register fields =>
    have hall := lexesTo_register true 0 hroot.register.1
    rw [lex, makeSit, hall.scan_eq]
    exact (List.append_nil _).symm
  | parent fields firstChild =>
    obtain ⟨hfields, hchild, -⟩ := Nodes.Printable.parent hroot
    have hall := lexesTo_parent hroot.names_words true 0 hfields
      (lexesTo_children hroot.names_words 1 hchild) (printChildren_stops _ 1 firstChild)
    exact hall.scan_eq

end Sit

end Mast
