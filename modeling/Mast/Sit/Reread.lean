import Mast.Sit.Parser
import Mast.Sit.PrintedTokens

/-!
# Parsing the tokens of a printed tree

The parser accepts the tokens of a tree, or it rejects them, depending on the parent nodes of the tree. An access interface or a linker that is ignored for node paths is rejected: the printer writes `NOT_IN_PATH` after the notes of the node, and the grammar wants it after the name. So is a chain without children, for which the printer writes empty braces.
-/

namespace Mast

namespace Sit

open BinaryVector (Text ofBits)

/-! ### What is made of a printed tree -/

/-- The register that is made from what is printed for one. -/
def RegisterFields.reread (fields : RegisterFields) : RegisterFields :=
  { fields with bypassSequence := ofBits fields.bypassSequence.bits .fixed }

/-- The parent node that is made from what is printed for one. -/
def ParentFields.reread (factory : ProtocolFactory) (names : List Text)
    (fields : ParentFields Selector) : ParentFields UnresolvedSelector :=
  match fields.kind with
  | .accessInterface protocol =>
    ⟨.accessInterface (factory (Printer.protocolNote protocol) []).toOption, fields.name, false⟩
  | .chain => ⟨.chain, fields.name, fields.ignoreForNodePath⟩
  | .linker selector =>
    ⟨.linker ⟨selector.kindName, [names.getD selector.associatedRegister []],
      selector.selectablePaths, []⟩, fields.name, true⟩

def Nodes.reread (factory : ProtocolFactory) (names : List Text) :
    Nodes Selector → Nodes UnresolvedSelector
  | .nil => .nil
  | .register fields nextSibling => .register fields.reread (nextSibling.reread factory names)
  | .parent fields firstChild nextSibling =>
    .parent (fields.reread factory names) (firstChild.reread factory names)
      (nextSibling.reread factory names)

/-- What is printed for a parent node is in the grammar, and its protocol can be made without parameters. -/
structure ParentFields.InGrammar (factory : ProtocolFactory) (fields : ParentFields Selector)
    (firstChild : Nodes Selector) : Prop where
  protocol : ∀ protocol, fields.kind = .accessInterface protocol →
    (factory (Printer.protocolNote protocol) []).isOk = true
  inPath : fields.kind ≠ .chain → fields.ignoreForNodePath = false
  children : fields.kind = .chain → firstChild ≠ .nil
  plainName : ¬Parser.brocadeTag <:+: fields.name

def Nodes.InGrammar (factory : ProtocolFactory) (nodes : Nodes Selector) : Prop :=
  ∀ parent ∈ nodes.parents, parent.1.InGrammar factory parent.2

/-! ### Accepting or rejecting -/

/-- The parser ends with this value when a condition holds, and otherwise with a fault that is not one of the model. -/
def Reads {α : Type} (parser : Parser α) (driver : Driver) (condition : Prop) (value : α)
    (after : Driver) : Prop :=
  (condition ∧ parser.run driver = .ok value after) ∨
    (¬condition ∧ ∃ fault last, parser.run driver = .error fault last ∧ fault ≠ .outOfFuel)

namespace Reads

variable {α β : Type} {parser : Parser α} {driver after : Driver} {condition : Prop} {value : α}

theorem of_run (hrun : parser.run driver = .ok value after) : Reads parser driver True value after :=
  .inl ⟨trivial, hrun⟩

theorem of_error {fault : ParseFault} {last : Driver} (hrun : parser.run driver = .error fault last)
    (hfault : fault ≠ .outOfFuel) (hcondition : ¬condition) :
    Reads parser driver condition value after :=
  .inr ⟨hcondition, fault, last, hrun, hfault⟩

theorem bind {next : α → Parser β} {condition' : Prop} {value' : β} {after' : Driver}
    (h : Reads parser driver condition value after)
    (h' : condition → Reads (next value) after condition' value' after') :
    Reads (parser >>= next) driver (condition ∧ condition') value' after' := by
  rcases h with ⟨hcondition, hrun⟩ | ⟨hcondition, fault, last, hrun, hfault⟩
  · have hbind : (parser >>= next).run driver = (next value).run after := by
      rw [EStateM.run_bind, hrun]
    rcases h' hcondition with ⟨hcondition', hrun'⟩ | ⟨hcondition', fault, last, hrun', hfault⟩
    · exact .inl ⟨⟨hcondition, hcondition'⟩, hbind.trans hrun'⟩
    · exact .inr ⟨fun hboth => hcondition' hboth.2, fault, last, hbind.trans hrun', hfault⟩
  · refine .inr ⟨fun hboth => hcondition hboth.1, fault, last, ?_, hfault⟩
    rw [EStateM.run_bind, hrun]

theorem iff {condition' : Prop} (h : Reads parser driver condition value after)
    (hiff : condition ↔ condition') : Reads parser driver condition' value after :=
  propext hiff ▸ h

theorem of_iff {condition' : Prop} (hiff : condition ↔ condition')
    (h : Reads parser driver condition value after) : Reads parser driver condition' value after :=
  h.iff hiff

/-- A step that succeeds, before the rest. -/
theorem after_run {next : α → Parser β} {value' : β} {after' : Driver}
    (hrun : parser.run driver = .ok value after)
    (h : Reads (next value) after condition value' after') :
    Reads (parser >>= next) driver condition value' after' :=
  ((of_run hrun).bind fun _ => h).iff (iff_of_eq (true_and _))

end Reads

namespace Parser

/-! ### Tokens -/

section Tokens

variable {tokens : List Token} (registers : List (Text × Nat)) (nodes : List Text)

theorem accept_yes (token : Token) (tokens : List Token) :
    (accept token).run ⟨token :: tokens, registers, nodes⟩ = .ok true ⟨tokens, registers, nodes⟩ := by
  simp only [accept, peek, skip, EStateM.run_bind, EStateM.run_get, EStateM.run_pure,
    EStateM.run_modify, List.head?_cons, if_true]
  rfl

theorem accept_no {token : Token} {tokens : List Token} (htoken : tokens.head? ≠ some token) :
    (accept token).run ⟨tokens, registers, nodes⟩ = .ok false ⟨tokens, registers, nodes⟩ := by
  simp only [accept, peek, EStateM.run_bind, EStateM.run_get, EStateM.run_pure, if_neg htoken]

theorem expect_run (token : Token) (tokens : List Token) :
    (expect token).run ⟨token :: tokens, registers, nodes⟩ = .ok () ⟨tokens, registers, nodes⟩ := by
  simp only [expect, peek, skip, EStateM.run_bind, EStateM.run_get, EStateM.run_pure,
    EStateM.run_modify, List.head?_cons, if_true]
  rfl

theorem expectWord_run (word : Text) (tokens : List Token) :
    expectWord.run ⟨.word word :: tokens, registers, nodes⟩ = .ok word ⟨tokens, registers, nodes⟩ := by
  rfl

theorem expectDecimal_run (value : Nat) (tokens : List Token) :
    expectDecimal.run ⟨.decimalLiteral value :: tokens, registers, nodes⟩ =
      .ok value ⟨tokens, registers, nodes⟩ := by
  rfl

theorem expectQuoted_run (text : Text) (tokens : List Token) :
    expectQuoted.run ⟨.quotedString text :: tokens, registers, nodes⟩ =
      .ok text ⟨tokens, registers, nodes⟩ := by
  rfl

theorem optionalString_none (htokens : ∀ text, tokens.head? ≠ some (.quotedString text)) :
    optionalString.run ⟨tokens, registers, nodes⟩ = .ok [] ⟨tokens, registers, nodes⟩ := by
  simp only [optionalString, peek, EStateM.run_bind, EStateM.run_get, EStateM.run_pure]

theorem require_reads {condition : Prop} [Decidable condition] {fault : ParseFault}
    (hfault : fault ≠ .outOfFuel) (driver : Driver) :
    Reads (require condition fault) driver condition () driver := by
  by_cases hcondition : condition
  · refine .inl ⟨hcondition, ?_⟩
    rw [require, if_pos hcondition]
    rfl
  · have hrun : (require condition fault).run driver = .error fault driver := by
      rw [require, if_neg hcondition]
      rfl
    exact .of_error hrun hfault hcondition

theorem require_run {condition : Prop} [Decidable condition] (hcondition : condition)
    (fault : ParseFault) (driver : Driver) :
    (require condition fault).run driver = .ok () driver := by
  rw [require, if_pos hcondition]
  rfl

theorem nodeName_run (name : Text) (tokens : List Token)
    (htokens : tokens.head? ≠ some (.keyword .transparent)) :
    nodeName.run ⟨.word name :: tokens, registers, nodes⟩ =
      .ok (name, false) ⟨tokens, registers, nodes⟩ := by
  simp only [nodeName, EStateM.run_bind, expectWord_run, accept_no registers nodes htokens,
    EStateM.run_pure]

theorem nodeName_ignored (name : Text) (tokens : List Token) :
    nodeName.run ⟨.word name :: .keyword .transparent :: tokens, registers, nodes⟩ =
      .ok (name, true) ⟨tokens, registers, nodes⟩ := by
  simp only [nodeName, EStateM.run_bind, expectWord_run, accept_yes, EStateM.run_pure]

end Tokens

/-! ### Registers -/

theorem removeQuotes_bypassString {fields : RegisterFields} (hfields : fields.Printable) :
    removeQuotes (bypassString fields) =
      fields.bypassSequence.dataAsMixString 8 .default := by
  have hcontent := mixString_content hfields.2.exactBytes 8
  have hkeep : (fields.bypassSequence.dataAsMixString 8 .default).filter (· ≠ '"') =
      fields.bypassSequence.dataAsMixString 8 .default := by
    refine List.filter_eq_self.mpr fun c hc => ?_
    have hc := hcontent c hc
    by_contra hquote
    obtain rfl : c = '"' := by simpa using hquote
    exact absurd hc (by decide)
  have hquotes : removeQuotes (bypassString fields) =
      (fields.bypassSequence.dataAsMixString 8 .default).filter (· ≠ '"') := by
    simp [removeQuotes, bypassString]
  exact hquotes.trans hkeep

theorem createRegister_bypassString {fields : RegisterFields} (hfields : fields.Printable) :
    createRegister fields.name fields.bypassSequence.usedBits fields.holdValue
      (bypassString fields) = .ok fields.reread := by
  obtain ⟨q, hread⟩ := BinaryVector.mix_roundTrip hfields.2 .notFixed .isError
    (show 4 ≤ 8 by decide)
  have hlength : (ofBits fields.bypassSequence.bits q).usedBits =
      fields.bypassSequence.usedBits := hfields.2.exactBytes.bits_length
  unfold createRegister
  rw [removeQuotes_bypassString hfields, hread]
  exact if_neg (not_not.mpr hlength)

theorem registerNode_run {fields : RegisterFields} (hfields : fields.Printable)
    (rest : List Token) (registers : List (Text × Nat)) (nodes : List Text) :
    registerNode.run ⟨registerTokens fields ++ rest, registers, nodes⟩ =
      .ok fields.reread
        ⟨rest, registers ++ [(fields.name, fields.bypassSequence.usedBits)], nodes⟩ := by
  have hname := nodeName_run registers nodes fields.name
    (.decimalLiteral fields.bypassSequence.usedBits ::
      ((if fields.holdValue then [.keyword .holdValue] else []) ++
        [.keyword .bypass, .semicolon, .quotedString (bypassString fields)] ++ rest)) (by simp)
  have hlength : fields.reread.bypassSequence.usedBits = fields.bypassSequence.usedBits :=
    hfields.2.exactBytes.bits_length
  have hholds : (accept (.keyword .holdValue)).run
      ⟨(if fields.holdValue then [.keyword .holdValue] else []) ++
        [.keyword .bypass, .semicolon, .quotedString (bypassString fields)] ++ rest, registers,
        nodes⟩ = .ok fields.holdValue
      ⟨[.keyword .bypass, .semicolon, .quotedString (bypassString fields)] ++ rest, registers,
        nodes⟩ := by
    cases fields.holdValue with
    | false => exact accept_no registers nodes (by simp)
    | true => exact accept_yes registers nodes _ _
  have hhead : registerTokens fields ++ rest = .keyword .register :: .word fields.name ::
      .decimalLiteral fields.bypassSequence.usedBits ::
      ((if fields.holdValue then [.keyword .holdValue] else []) ++
        [.keyword .bypass, .semicolon, .quotedString (bypassString fields)] ++ rest) := by
    simp [registerTokens]
  rw [hhead]
  simp only [registerNode, EStateM.run_bind, expect_run, hname, expectDecimal_run, hholds,
    List.cons_append, List.nil_append, expectQuoted_run, createRegister_bypassString hfields, lift,
    EStateM.run_pure, EStateM.run_modify, hlength]
  rfl

/-! ### Parent nodes -/

/-- The note that is left where the grammar has no place for it. -/
def leftNote (fields : ParentFields Selector) : List Token :=
  if fields.kind ≠ .chain ∧ fields.ignoreForNodePath = true then [.keyword .transparent] else []

section ParentNodes

variable (factory : ProtocolFactory) (names : List Text) {fields : ParentFields Selector}
  (rest : List Token) (registers : List (Text × Nat)) (nodes : List Text)

/-- What follows the notes of a parent node that is no chain. -/
def afterNotes (fields : ParentFields Selector) (rest : List Token) : List Token :=
  (if fields.ignoreForNodePath then [.keyword .transparent] else []) ++ .leftParenthesis :: rest

theorem afterNotes_head (fields : ParentFields Selector) :
    (afterNotes fields rest).head? = some (.keyword .transparent) ∨
      (afterNotes fields rest).head? = some .leftParenthesis := by
  unfold afterNotes
  cases fields.ignoreForNodePath with
  | false => exact .inr rfl
  | true => exact .inl rfl

theorem optionalString_afterNotes :
    optionalString.run ⟨afterNotes fields rest, registers, nodes⟩ =
      .ok [] ⟨afterNotes fields rest, registers, nodes⟩ := by
  apply optionalString_none
  intro text htext
  rcases afterNotes_head rest fields with hhead | hhead
  · rw [hhead] at htext
    exact absurd htext (by simp)
  · rw [hhead] at htext
    exact absurd htext (by simp)

theorem lift_createProtocol_reads (name protocolName parameters : Text) (driver : Driver) :
    Reads (lift (createProtocol factory name protocolName parameters)) driver
      ((factory protocolName parameters).isOk = true)
      ((factory protocolName parameters).toOption.getD []) driver := by
  unfold createProtocol
  cases hcreate : factory protocolName parameters with
  | ok kindName => exact (Reads.of_run rfl).iff ⟨fun _ => rfl, fun _ => trivial⟩
  | error fault =>
    have hno : ¬(Except.isOk (Except.error fault : Except Fault Text) = true) := by
      simp [Except.isOk, Except.toBool]
    cases fault with
    | invalidArgument what => exact .of_error rfl (by simp) hno
    | _ => exact .of_error rfl (by simp) hno

theorem accessInterface_reads {protocol : Option Text} (hkind : fields.kind = .accessInterface protocol) :
    Reads (accessInterface factory)
      ⟨headerTokens names fields ++ openingToken fields.kind :: rest, registers, nodes⟩
      ((factory (Printer.protocolNote protocol) []).isOk = true) (fields.reread factory names)
      ⟨afterNotes fields rest, registers, nodes⟩ := by
  have htokens : headerTokens names fields ++ openingToken fields.kind :: rest =
      .keyword .accessInterface :: .word fields.name ::
        .word (Printer.protocolNote protocol) :: afterNotes fields rest := by
    simp [headerTokens, afterNotes, hkind, keywordOf, noteTokens, openingToken]
  have hcreate := lift_createProtocol_reads factory fields.name
    (Printer.protocolNote protocol) [] ⟨afterNotes fields rest, registers, nodes⟩
  rw [htokens, accessInterface]
  refine .after_run (expect_run registers nodes _ _) ?_
  refine .after_run (nodeName_run registers nodes fields.name _ (by simp)) ?_
  refine .after_run (expectWord_run registers nodes _ _) ?_
  refine .after_run (optionalString_afterNotes rest registers nodes) ?_
  refine (hcreate.bind fun hok => ?_).iff (iff_of_eq (and_true _))
  apply Reads.of_run
  cases hresult : factory (Printer.protocolNote protocol) [] with
  | ok kindName => simp [ParentFields.reread, hkind, hresult, Except.toOption]
  | error fault =>
    rw [hresult] at hok
    exact absurd hok (by simp [Except.isOk, Except.toBool])

theorem linker_run {selector : Selector} (hkind : fields.kind = .linker selector)
    (hname : names.getD selector.associatedRegister [] ≠ []) :
    linker.run ⟨headerTokens names fields ++ openingToken fields.kind :: rest, registers, nodes⟩ =
      .ok (fields.reread factory names) ⟨afterNotes fields rest, registers, nodes⟩ := by
  have htokens : headerTokens names fields ++ openingToken fields.kind :: rest =
      .keyword .linker :: .word fields.name :: .word selector.kindName ::
        .word (names.getD selector.associatedRegister []) ::
        .decimalLiteral selector.selectablePaths :: afterNotes fields rest := by
    simp [headerTokens, afterNotes, hkind, keywordOf, noteTokens, openingToken]
  have hregisters : selectorRegisterNames.run
      ⟨.word (names.getD selector.associatedRegister []) ::
        .decimalLiteral selector.selectablePaths :: afterNotes fields rest, registers, nodes⟩ =
      .ok [names.getD selector.associatedRegister []]
        ⟨.decimalLiteral selector.selectablePaths :: afterNotes fields rest, registers, nodes⟩ := rfl
  have hopen : (accept (.keyword .keepOpen)).run
      ⟨.word (names.getD selector.associatedRegister []) ::
        .decimalLiteral selector.selectablePaths :: afterNotes fields rest, registers, nodes⟩ =
      .ok false ⟨.word (names.getD selector.associatedRegister []) ::
        .decimalLiteral selector.selectablePaths :: afterNotes fields rest, registers, nodes⟩ :=
    accept_no registers nodes (by simp)
  have hfirst : [names.getD selector.associatedRegister []].head? ≠ some [] := by
    simpa using hname
  have hreread : fields.reread factory names =
      ⟨.linker ⟨selector.kindName, [names.getD selector.associatedRegister []],
        selector.selectablePaths, []⟩, fields.name, true⟩ := by
    simp [ParentFields.reread, hkind]
  rw [htokens, hreread]
  simp only [linker, EStateM.run_bind, expect_run,
    nodeName_run registers nodes fields.name (.word _ :: _) (by simp), expectWord_run, hopen,
    require_run rfl, hregisters, expectDecimal_run, optionalString_afterNotes, require_run hfirst,
    EStateM.run_pure]

theorem chain_run (hkind : fields.kind = .chain) :
    chain.run ⟨headerTokens names fields ++ openingToken fields.kind :: rest, registers, nodes⟩ =
      .ok (fields.reread factory names)
        ⟨openingToken fields.kind :: rest, registers, nodes⟩ := by
  have htokens : headerTokens names fields ++ openingToken fields.kind :: rest =
      .keyword .chain :: .word fields.name ::
        ((if fields.ignoreForNodePath then [.keyword .transparent] else []) ++
          openingToken fields.kind :: rest) := by
    simp [headerTokens, hkind, keywordOf, noteTokens]
  have hname : nodeName.run ⟨.word fields.name ::
      ((if fields.ignoreForNodePath then [.keyword .transparent] else []) ++
        openingToken fields.kind :: rest), registers, nodes⟩ =
      .ok (fields.name, fields.ignoreForNodePath)
        ⟨openingToken fields.kind :: rest, registers, nodes⟩ := by
    cases fields.ignoreForNodePath with
    | false => exact nodeName_run registers nodes _ _ (by simp [hkind, openingToken])
    | true => exact nodeName_ignored registers nodes _ _
  have hreread : fields.reread factory names =
      ⟨.chain, fields.name, fields.ignoreForNodePath⟩ := by
    simp [ParentFields.reread, hkind]
  rw [htokens, hreread]
  simp only [chain, EStateM.run_bind, expect_run, hname, EStateM.run_pure]

theorem parentNode_reads (hfields : fields.Printable names) (hnames : ∀ name ∈ names, IsWord name) :
    Reads (parentNode factory)
      ⟨headerTokens names fields ++ openingToken fields.kind :: rest, registers, nodes⟩
      (∀ protocol, fields.kind = .accessInterface protocol →
        (factory (Printer.protocolNote protocol) []).isOk = true)
      (fields.reread factory names)
      ⟨leftNote fields ++ openingToken fields.kind :: rest, registers, nodes⟩ := by
  have hpeek : peek.run
      ⟨headerTokens names fields ++ openingToken fields.kind :: rest, registers, nodes⟩ =
      .ok (some (.keyword (keywordOf fields.kind)))
        ⟨headerTokens names fields ++ openingToken fields.kind :: rest, registers, nodes⟩ := rfl
  refine .after_run hpeek ?_
  cases hkind : fields.kind with
  | accessInterface protocol =>
    have hread := accessInterface_reads factory names rest registers nodes hkind
    have hleft : leftNote fields ++ openingToken fields.kind :: rest = afterNotes fields rest := by
      simp [leftNote, afterNotes, hkind, openingToken]
    have hcreated : (factory (Printer.protocolNote protocol) []).isOk = true ↔
        ∀ other, fields.kind = .accessInterface other →
          (factory (Printer.protocolNote other) []).isOk = true := by
      refine ⟨fun hok other heq => ?_, fun hall => hall protocol hkind⟩
      rw [hkind] at heq
      obtain rfl := ParentKind.accessInterface.inj heq
      exact hok
    have hkeyword : keywordOf fields.kind = .accessInterface := by rw [hkind, keywordOf]
    rw [← hkind, hleft, hkeyword]
    exact hread.iff hcreated
  | chain =>
    have hrun := chain_run factory names rest registers nodes hkind
    have hleft : leftNote fields = [] := by simp [leftNote, hkind]
    have hnone : ∀ protocol, fields.kind = .accessInterface protocol →
        (factory (Printer.protocolNote protocol) []).isOk = true := by
      simp [hkind]
    have hkeyword : keywordOf fields.kind = .chain := by rw [hkind, keywordOf]
    rw [← hkind, hleft, hkeyword]
    exact (Reads.of_run hrun).iff (iff_of_true trivial hnone)
  | linker selector =>
    have hregister : selector.associatedRegister < names.length := by
      have hprintable := hfields.2
      rw [hkind] at hprintable
      exact hprintable.1
    have hname : names.getD selector.associatedRegister [] ≠ [] := by
      have hentry : names.getD selector.associatedRegister [] =
          names[selector.associatedRegister] := by
        simp [hregister]
      rw [hentry]
      exact (hnames _ (List.getElem_mem hregister)).1
    have hrun := linker_run factory names rest registers nodes hkind hname
    have hleft : leftNote fields ++ openingToken fields.kind :: rest = afterNotes fields rest := by
      simp [leftNote, afterNotes, hkind, openingToken]
    have hnone : ∀ protocol, fields.kind = .accessInterface protocol →
        (factory (Printer.protocolNote protocol) []).isOk = true := by
      simp [hkind]
    have hkeyword : keywordOf fields.kind = .linker := by rw [hkind, keywordOf]
    rw [← hkind, hleft, hkeyword]
    exact (Reads.of_run hrun).iff (iff_of_true trivial hnone)

theorem skip_run (token : Token) (tokens : List Token) :
    skip.run ⟨token :: tokens, registers, nodes⟩ = .ok () ⟨tokens, registers, nodes⟩ := rfl

theorem peek_run (tokens : List Token) :
    peek.run ⟨tokens, registers, nodes⟩ = .ok tokens.head? ⟨tokens, registers, nodes⟩ := rfl

variable {nodeList : Parser (Nodes UnresolvedSelector)} {children : List Token} {condition : Prop}
  {value : Nodes UnresolvedSelector} {registers' : List (Text × Nat)} {nodes' : List Text}

theorem childrenList_reads (hchildren : Reads nodeList
      ⟨children ++ closingToken fields.kind :: rest, registers, nodes⟩ condition value
      ⟨closingToken fields.kind :: rest, registers', nodes'⟩) :
    Reads (childrenList nodeList)
      ⟨leftNote fields ++ openingToken fields.kind :: (children ++ closingToken fields.kind :: rest),
        registers, nodes⟩
      (leftNote fields = [] ∧ condition ∧ (fields.kind = .chain → value ≠ .nil))
      (value, decide (fields.kind = .chain)) ⟨rest, registers', nodes'⟩ := by
  by_cases hnote : leftNote fields = []
  · rw [hnote, List.nil_append, childrenList]
    refine .after_run (peek_run registers nodes _) ?_
    rw [List.head?_cons]
    by_cases hkind : fields.kind = .chain
    · have hopening : openingToken fields.kind = .startHierarchy := by rw [hkind, openingToken]
      have hclosing : closingToken fields.kind = .endHierarchy := by rw [hkind, closingToken]
      rw [hopening]
      refine .after_run (skip_run registers nodes _ _) ?_
      have hend : Reads (do expect .endHierarchy; return (value, true))
          ⟨closingToken fields.kind :: rest, registers', nodes'⟩ True (value, decide (fields.kind = .chain))
          ⟨rest, registers', nodes'⟩ := by
        rw [hclosing]
        refine .after_run (expect_run registers' nodes' _ _) (.of_run ?_)
        rw [decide_eq_true hkind]
        rfl
      refine .of_iff (?_ : (condition ∧ value ≠ .nil ∧ True) ↔ _)
        (hchildren.bind fun _ => (require_reads (by simp) _).bind fun _ => hend)
      simp [hkind]
    · have hopening : openingToken fields.kind = .leftParenthesis := by
        unfold openingToken
        split
        · exact absurd ‹_› hkind
        · rfl
      have hclosing : closingToken fields.kind = .rightParenthesis := by
        unfold closingToken
        split
        · exact absurd ‹_› hkind
        · rfl
      rw [hopening]
      refine .after_run (skip_run registers nodes _ _) ?_
      have hend : Reads (do expect .rightParenthesis; return (value, false))
          ⟨closingToken fields.kind :: rest, registers', nodes'⟩ True (value, decide (fields.kind = .chain))
          ⟨rest, registers', nodes'⟩ := by
        rw [hclosing]
        refine .after_run (expect_run registers' nodes' _ _) (.of_run ?_)
        rw [decide_eq_false hkind]
        rfl
      exact (hchildren.bind fun _ => hend).iff (by simp [hkind])
  · have htransparent : leftNote fields = [.keyword .transparent] := by
      unfold leftNote at hnote ⊢
      split_ifs at hnote ⊢
      · rfl
      · exact absurd rfl hnote
    have hrejected : ∀ tokens, (childrenList nodeList).run
        ⟨.keyword .transparent :: tokens, registers, nodes⟩ =
        .error .syntaxError ⟨.keyword .transparent :: tokens, registers, nodes⟩ := fun _ => rfl
    rw [htransparent]
    exact .of_error (hrejected _) (by simp) fun hall => absurd hall.1 (by simp)

theorem parentNodeWithChildren_reads {firstChild : Nodes Selector} (hfields : fields.Printable names)
    (hnames : ∀ name ∈ names, IsWord name)
    (hnil : value = .nil ↔ firstChild = .nil)
    (hchildren : Reads nodeList
      ⟨children ++ closingToken fields.kind :: rest, registers, nodes⟩ condition value
      ⟨closingToken fields.kind :: rest, registers', nodes'⟩) :
    Reads (parentNodeWithChildren nodeList factory)
      ⟨headerTokens names fields ++ openingToken fields.kind ::
        (children ++ closingToken fields.kind :: rest), registers, nodes⟩
      (fields.InGrammar factory firstChild ∧ condition)
      (.parent (fields.reread factory names) value) ⟨rest, registers', nodes'⟩ := by
  have hkind : (fields.reread factory names).kind = .chain ↔ fields.kind = .chain := by
    unfold ParentFields.reread
    cases fields.kind <;> simp
  have hname : (fields.reread factory names).name = fields.name := by
    unfold ParentFields.reread
    cases fields.kind <;> rfl
  have hbraces : decide (fields.kind = .chain) = true ↔ fields.kind = .chain := decide_eq_true_iff
  have hpdl : Reads pdlDeclaration ⟨leftNote fields ++ openingToken fields.kind ::
      (children ++ closingToken fields.kind :: rest), registers, nodes⟩ True ()
      ⟨leftNote fields ++ openingToken fields.kind ::
        (children ++ closingToken fields.kind :: rest), registers, nodes⟩ := by
    refine .after_run (peek_run registers nodes _) (.of_run (require_run ?_ _ _))
    unfold leftNote openingToken
    split_ifs <;> split <;> simp
  have hbrackets : Reads (checkBrackets (fields.reread factory names) (decide (fields.kind = .chain)))
      ⟨rest, registers', nodes'⟩ True () ⟨rest, registers', nodes'⟩ := by
    refine .after_run (require_run ?_ _ _) (.of_run (require_run ?_ _ _))
    · rw [hkind, hbraces]
      exact id
    · rw [hkind, hbraces]
      exact id
  have hbrocade : Reads (checkBrocade (fields.reread factory names)) ⟨rest, registers', nodes'⟩
      (¬brocadeTag <:+: fields.name) () ⟨rest, registers', nodes'⟩ := by
    rw [← hname]
    exact require_reads (by simp) _
  have hheader := parentNode_reads factory names
    (children ++ closingToken fields.kind :: rest) registers nodes hfields hnames
  refine .of_iff (?_ : ((∀ protocol, fields.kind = .accessInterface protocol →
      (factory (Printer.protocolNote protocol) []).isOk = true) ∧ True ∧
      (leftNote fields = [] ∧ condition ∧ (fields.kind = .chain → value ≠ .nil)) ∧ True ∧
      (¬brocadeTag <:+: fields.name) ∧ True) ↔ _)
    (hheader.bind fun _ => hpdl.bind fun _ =>
      (childrenList_reads rest registers nodes hchildren).bind fun _ =>
        hbrackets.bind fun _ => hbrocade.bind fun _ => .of_run rfl)
  have hleft : leftNote fields = [] ↔ (fields.kind ≠ .chain → fields.ignoreForNodePath = false) := by
    unfold leftNote
    split_ifs with h
    · simp [h.1, h.2]
    · simpa using h
  rw [hleft]
  constructor
  · rintro ⟨hprotocol, -, ⟨hpath, hlist, hchain⟩, -, hplain, -⟩
    exact ⟨⟨hprotocol, hpath, fun h heq => hchain h (hnil.mpr heq), hplain⟩, hlist⟩
  · rintro ⟨⟨hprotocol, hpath, hchain, hplain⟩, hlist⟩
    exact ⟨hprotocol, trivial, ⟨hpath, hlist, fun h heq => hchain h (hnil.mp heq)⟩, trivial, hplain,
      trivial⟩

/-- A node that is no register is read as a parent node, and its name is declared. -/
theorem node_parent_reads {firstChild : Nodes Selector} (hfields : fields.Printable names)
    (hnames : ∀ name ∈ names, IsWord name)
    (hnil : value = .nil ↔ firstChild = .nil)
    (hchildren : Reads nodeList
      ⟨children ++ closingToken fields.kind :: rest, registers, nodes⟩ condition value
      ⟨closingToken fields.kind :: rest, registers', nodes'⟩) :
    Reads (node nodeList factory)
      ⟨headerTokens names fields ++ openingToken fields.kind ::
        (children ++ closingToken fields.kind :: rest), registers, nodes⟩
      (fields.InGrammar factory firstChild ∧ condition)
      (.parent (fields.reread factory names) value) ⟨rest, registers', nodes' ++ [fields.name]⟩ := by
  have hname : (fields.reread factory names).name = fields.name := by
    unfold ParentFields.reread
    cases fields.kind <;> rfl
  have hhead : ¬(headerTokens names fields ++ openingToken fields.kind ::
      (children ++ closingToken fields.kind :: rest)).head? = some (.keyword .register) := by
    rw [headerTokens, List.cons_append, List.head?_cons]
    cases fields.kind <;> simp [keywordOf]
  have hdeclare : (declareNode (Node.parent (fields.reread factory names) value).name).run
      ⟨rest, registers', nodes'⟩ = .ok () ⟨rest, registers', nodes' ++ [fields.name]⟩ := by
    rw [← hname]
    rfl
  have hparent := parentNodeWithChildren_reads factory names rest registers nodes hfields
    hnames hnil hchildren
  rw [node]
  refine .after_run (peek_run registers nodes _) ?_
  rw [if_neg hhead]
  refine .of_iff (?_ : ((fields.InGrammar factory firstChild ∧ condition) ∧ True) ↔ _)
    (hparent.bind fun _ => .after_run hdeclare (.of_run rfl))
  simp

end ParentNodes

theorem node_register_run (nodeList : Parser (Nodes UnresolvedSelector)) (factory : ProtocolFactory)
    {fields : RegisterFields} (hfields : fields.Printable) (rest : List Token)
    (registers : List (Text × Nat)) (nodes : List Text) :
    (node nodeList factory).run ⟨registerTokens fields ++ rest, registers, nodes⟩ =
      .ok (.register fields.reread)
        ⟨rest, registers ++ [(fields.name, fields.bypassSequence.usedBits)],
          nodes ++ [fields.name]⟩ := by
  have hhead : (registerTokens fields ++ rest).head? = some (.keyword .register) := rfl
  simp only [node, leafNode, EStateM.run_bind, peek_run, if_pos hhead,
    registerNode_run hfields rest registers nodes, EStateM.run_pure]
  rfl

/-! ### Lists of nodes -/

/-- The names and lengths of the registers that are declared by nodes. -/
def declaredRegisters (nodes : Nodes Selector) : List (Text × Nat) :=
  nodes.registers.map fun fields => (fields.name, fields.bypassSequence.usedBits)

/-- The names that are declared by nodes, that of a parent node after those of its children. -/
def declaredNames : Nodes Selector → List Text
  | .nil => []
  | .register fields nextSibling => fields.name :: declaredNames nextSibling
  | .parent fields firstChild nextSibling =>
    declaredNames firstChild ++ fields.name :: declaredNames nextSibling

def nodesCount : Nodes Selector → Nat
  | .nil => 0
  | .register _ nextSibling => 1 + nodesCount nextSibling
  | .parent _ firstChild nextSibling => 1 + nodesCount firstChild + nodesCount nextSibling

theorem reread_nil_iff (factory : ProtocolFactory) (names : List Text) (nodes : Nodes Selector) :
    nodes.reread factory names = .nil ↔ nodes = .nil := by
  cases nodes <;> simp [Nodes.reread]

/-- What follows a list of nodes starts no further node. -/
def EndsList (rest : List Token) : Prop := (rest.head?.map startsNode).getD false = false

theorem endsList_closing {σ : Type} (kind : ParentKind σ) (rest : List Token) :
    EndsList (closingToken kind :: rest) := by
  cases kind <;> rfl

theorem nodeListOf_reads (factory : ProtocolFactory) {names : List Text}
    (hnames : ∀ name ∈ names, IsWord name) {nodes : Nodes Selector} (hnodes : nodes.Printable names)
    {fuel : Nat} (hfuel : nodesCount nodes < fuel) {rest : List Token} (hrest : EndsList rest)
    (registers : List (Text × Nat)) (declared : List Text) :
    Reads (nodeListOf factory fuel) ⟨nodes.tokens names ++ rest, registers, declared⟩
      (nodes.InGrammar factory) (nodes.reread factory names)
      ⟨rest, registers ++ declaredRegisters nodes, declared ++ declaredNames nodes⟩ := by
  induction nodes generalizing fuel rest registers declared with
  | nil =>
    obtain ⟨fuel, rfl⟩ : ∃ k, fuel = k + 1 := ⟨fuel - 1, by simp [nodesCount] at hfuel; omega⟩
    have hend : Reads (nodeListOf factory (fuel + 1)) ⟨rest, registers, declared⟩ True .nil
        ⟨rest, registers, declared⟩ := by
      rw [nodeListOf]
      refine .after_run (peek_run registers declared _) ?_
      rw [hrest]
      exact .of_run rfl
    have hparses : True ↔ (Nodes.nil : Nodes Selector).InGrammar factory := by
      simp [Nodes.InGrammar, Nodes.parents]
    simpa [Nodes.tokens, declaredRegisters, Nodes.registers, declaredNames, Nodes.reread] using
      hend.iff hparses
  | register fields nextSibling ih =>
    obtain ⟨hfields, hnext⟩ := hnodes.register
    obtain ⟨fuel, rfl⟩ : ∃ k, fuel = k + 1 := ⟨fuel - 1, by omega⟩
    have hrun := node_register_run (nodeListOf factory fuel) factory hfields
      (nextSibling.tokens names ++ rest) registers declared
    have hlist := ih hnext (show nodesCount nextSibling < fuel by simp [nodesCount] at hfuel; omega)
      hrest (registers ++ [(fields.name, fields.bypassSequence.usedBits)])
      (declared ++ [fields.name])
    have hparses : (nextSibling.InGrammar factory ∧ True) ↔
        (Nodes.register fields nextSibling).InGrammar factory := iff_of_eq (and_true _)
    have htokens : (Nodes.register fields nextSibling).tokens names ++ rest =
        registerTokens fields ++ (nextSibling.tokens names ++ rest) := List.append_assoc _ _ _
    have hafter : registers ++ declaredRegisters (.register fields nextSibling) =
        registers ++ [(fields.name, fields.bypassSequence.usedBits)] ++
          declaredRegisters nextSibling := by
      simp [declaredRegisters, Nodes.registers]
    have hnames : declared ++ declaredNames (.register fields nextSibling) =
        declared ++ [fields.name] ++ declaredNames nextSibling := by
      simp [declaredNames]
    rw [htokens, hafter, hnames, nodeListOf]
    refine .after_run (peek_run registers declared _) ?_
    refine .after_run hrun ?_
    exact .of_iff hparses (hlist.bind fun _ => .of_run rfl)
  | parent fields firstChild nextSibling ihChild ihNext =>
    obtain ⟨hfields, hchild, hnext⟩ := hnodes.parent
    obtain ⟨fuel, rfl⟩ : ∃ k, fuel = k + 1 := ⟨fuel - 1, by omega⟩
    have hcount : nodesCount firstChild < fuel ∧ nodesCount nextSibling < fuel := by
      simp [nodesCount] at hfuel
      omega
    have hchildren := ihChild hchild hcount.1
      (endsList_closing fields.kind (nextSibling.tokens names ++ rest)) registers declared
    have hnode := node_parent_reads factory names _ registers declared hfields hnames
      (reread_nil_iff factory names firstChild) hchildren
    have hlist := ihNext hnext hcount.2 hrest (registers ++ declaredRegisters firstChild)
      (declared ++ declaredNames firstChild ++ [fields.name])
    have hparses : ((fields.InGrammar factory firstChild ∧ firstChild.InGrammar factory) ∧
        nextSibling.InGrammar factory ∧ True) ↔
          (Nodes.parent fields firstChild nextSibling).InGrammar factory := by
      simp [Nodes.InGrammar, Nodes.parents, or_imp, forall_and, and_assoc]
    have htokens : (Nodes.parent fields firstChild nextSibling).tokens names ++ rest =
        headerTokens names fields ++ openingToken fields.kind :: (firstChild.tokens names ++
          closingToken fields.kind :: (nextSibling.tokens names ++ rest)) := by
      simp [Nodes.tokens]
    have hafter : registers ++ declaredRegisters (.parent fields firstChild nextSibling) =
        registers ++ declaredRegisters firstChild ++ declaredRegisters nextSibling := by
      simp [declaredRegisters, Nodes.registers]
    have hdeclared : declared ++ declaredNames (.parent fields firstChild nextSibling) =
        declared ++ declaredNames firstChild ++ [fields.name] ++ declaredNames nextSibling := by
      simp [declaredNames]
    have hstarts : (((headerTokens names fields ++ openingToken fields.kind ::
        (firstChild.tokens names ++ closingToken fields.kind ::
          (nextSibling.tokens names ++ rest))).head?.map startsNode).getD false) = true := by
      rw [headerTokens, List.cons_append, List.head?_cons]
      cases fields.kind <;> rfl
    rw [htokens, hafter, hdeclared, nodeListOf]
    refine .after_run (peek_run registers declared _) ?_
    rw [if_pos hstarts]
    exact .of_iff hparses (hnode.bind fun _ => hlist.bind fun _ => .of_run rfl)

end Parser

end Sit

end Mast
