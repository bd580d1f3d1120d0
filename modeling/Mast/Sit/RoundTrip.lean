import Mast.BinaryVector.Compare
import Mast.Path.NamesChecker
import Mast.Sit.Reread

/-!
# Parsing a printed tree

A tree is rebuilt from its SIT text exactly when it has no linker, no ignored access interface, no empty chain, no name with the tag of the Brocade multiplexers, and protocols that can be made from their kind names. A linker never comes back: when it is ignored for node paths the text is rejected, and when it is not, the new linker is.
-/

namespace Mast

namespace Sit

open BinaryVector (Text ofBits)
open Outcome

/-! ### Trees that are the same -/

def RegisterFields.Same (fields fields' : RegisterFields) : Prop :=
  fields.name = fields'.name ∧
    fields.bypassSequence.compareEqualTo fields'.bypassSequence ∧ fields.holdValue = fields'.holdValue

/-- The same kind, and the same selector of a linker. -/
def ParentKind.Same : ParentKind Selector → ParentKind Selector → Prop
  | .accessInterface _, .accessInterface _ => True
  | .chain, .chain => True
  | .linker selector, .linker selector' => selector = selector'
  | _, _ => False

def ParentFields.Same (fields fields' : ParentFields Selector) : Prop :=
  fields.kind.Same fields'.kind ∧ fields.name = fields'.name ∧
    fields.ignoreForNodePath = fields'.ignoreForNodePath

/-- The same nodes in the same order, with the same children. -/
def Nodes.Same : Nodes Selector → Nodes Selector → Prop
  | .nil, .nil => True
  | .register fields nextSibling, .register fields' nextSibling' =>
    fields.Same fields' ∧ nextSibling.Same nextSibling'
  | .parent fields firstChild nextSibling, .parent fields' firstChild' nextSibling' =>
    fields.Same fields' ∧ firstChild.Same firstChild' ∧ nextSibling.Same nextSibling'
  | _, _ => False

def Node.Same (root root' : Node Selector) : Prop := (root.before .nil).Same (root'.before .nil)

/-- A tree whose names are words, with selectors driven by registers of the tree. -/
structure PrintableTree where
  root : Node Selector
  printable : root.Printable

def RoundTrips (factory : ProtocolFactory) (tree : PrintableTree) : Prop :=
  ∃ root, parse factory (makeSit tree.root) = .ok root ∧ root.Same tree.root

def ParentFields.IsLinker (fields : ParentFields Selector) : Prop :=
  ∃ selector, fields.kind = .linker selector

/-! ### The selectors -/

section Resolve

variable {factory : ProtocolFactory} (names : List Text) (driver : Driver)

theorem reread_same {fields : RegisterFields} (hfields : fields.Printable) :
    fields.reread.Same fields := by
  refine ⟨rfl, ?_, rfl⟩
  refine (BinaryVector.compareEqualTo_iff (BinaryVector.ofBits_wellFormed _ _).exactBytes
    hfields.2.exactBytes).mpr ?_
  exact BinaryVector.bits_ofBits _ _

/-- Without linkers there is nothing to resolve. -/
theorem resolveFields_plain {fields : ParentFields Selector} {firstChild : Nodes Selector}
    (hgrammar : fields.InGrammar factory firstChild) (hplain : ¬fields.IsLinker) :
    ∃ resolved, driver.resolveFields (fields.reread factory names) = .ok resolved ∧
      resolved.Same fields := by
  cases hkind : fields.kind with
  | accessInterface protocol =>
    have hpath := hgrammar.inPath (by simp [hkind])
    refine ⟨⟨.accessInterface (factory (Printer.protocolNote protocol) []).toOption, fields.name,
      false⟩, ?_, ?_, rfl, hpath.symm⟩
    · simp [ParentFields.reread, hkind, Driver.resolveFields]
    · rw [hkind]
      trivial
  | chain =>
    refine ⟨⟨.chain, fields.name, fields.ignoreForNodePath⟩, ?_, ?_, rfl, rfl⟩
    · simp [ParentFields.reread, hkind, Driver.resolveFields]
    · rw [hkind]
      trivial
  | linker selector => exact absurd ⟨selector, hkind⟩ hplain

theorem resolve_plain {nodes : Nodes Selector} (hnodes : nodes.Printable names)
    (hgrammar : nodes.InGrammar factory) (hplain : ∀ parent ∈ nodes.parents, ¬parent.1.IsLinker) :
    ∃ resolved, driver.resolve (nodes.reread factory names) = .ok resolved ∧
      resolved.Same nodes := by
  induction nodes with
  | nil => exact ⟨.nil, rfl, trivial⟩
  | register fields nextSibling ih =>
    obtain ⟨hfields, hnext⟩ := hnodes.register
    obtain ⟨resolved, hresolve, hsame⟩ := ih hnext hgrammar hplain
    refine ⟨.register fields.reread resolved, ?_, reread_same hfields, hsame⟩
    rw [Nodes.reread, Driver.resolve, hresolve]
    rfl
  | parent fields firstChild nextSibling ihChild ihNext =>
    obtain ⟨hfields, hchild, hnext⟩ := hnodes.parent
    obtain ⟨parent, hparent, hsame⟩ := resolveFields_plain names driver
      (hgrammar (fields, firstChild) List.mem_cons_self)
      (hplain (fields, firstChild) List.mem_cons_self)
    obtain ⟨children, hchildren, hsameChildren⟩ := ihChild hchild
      (fun p hp => hgrammar p (List.mem_cons_of_mem _ (List.mem_append_left _ hp)))
      (fun p hp => hplain p (List.mem_cons_of_mem _ (List.mem_append_left _ hp)))
    obtain ⟨siblings, hsiblings, hsameSiblings⟩ := ihNext hnext
      (fun p hp => hgrammar p (List.mem_cons_of_mem _ (List.mem_append_right _ hp)))
      (fun p hp => hplain p (List.mem_cons_of_mem _ (List.mem_append_right _ hp)))
    refine ⟨.parent parent children siblings, ?_, hsame, hsameChildren, hsameSiblings⟩
    rw [Nodes.reread, Driver.resolve, hparent, hchildren, hsiblings]
    rfl

/-- A linker that is made by the parser is ignored for node paths. -/
theorem resolveFields_linker {fields resolved : ParentFields Selector} (hlinker : fields.IsLinker)
    (hresolve : driver.resolveFields (fields.reread factory names) = .ok resolved) :
    resolved.ignoreForNodePath = true := by
  obtain ⟨selector, hkind⟩ := hlinker
  rw [ParentFields.reread, hkind] at hresolve
  obtain ⟨created, -, hresolved⟩ := bind_eq_ok.mp hresolve
  obtain rfl := Except.ok.inj hresolved
  rfl

theorem resolve_linkers {nodes resolved : Nodes Selector}
    (hresolve : driver.resolve (nodes.reread factory names) = .ok resolved)
    (hsame : resolved.Same nodes) :
    ∀ parent ∈ nodes.parents, parent.1.IsLinker → parent.1.ignoreForNodePath = true := by
  induction nodes generalizing resolved with
  | nil => exact fun parent hparent => absurd hparent List.not_mem_nil
  | register fields nextSibling ih =>
    obtain ⟨siblings, hsiblings, hresolved⟩ := bind_eq_ok.mp hresolve
    obtain rfl := Except.ok.inj hresolved
    exact ih hsiblings hsame.2
  | parent fields firstChild nextSibling ihChild ihNext =>
    obtain ⟨parent, hparent, hrest⟩ := bind_eq_ok.mp hresolve
    obtain ⟨children, hchildren, hrest⟩ := bind_eq_ok.mp hrest
    obtain ⟨siblings, hsiblings, hresolved⟩ := bind_eq_ok.mp hrest
    obtain rfl := Except.ok.inj hresolved
    obtain ⟨hfields, hsameChildren, hsameSiblings⟩ := hsame
    intro p hp hlinker
    rcases List.mem_cons.mp hp with rfl | hp
    · rw [← hfields.2.2]
      exact resolveFields_linker names driver hlinker hparent
    · rcases List.mem_append.mp hp with hp | hp
      · exact ihChild hchildren hsameChildren p hp hlinker
      · exact ihNext hsiblings hsameSiblings p hp hlinker

end Resolve

/-! ### The top node -/

theorem resolve_before (driver : Driver) (root : Node UnresolvedSelector) :
    driver.resolve (root.before .nil) =
      (driver.resolveRoot root).map fun resolved => resolved.before .nil := by
  cases root with
  | register fields => rfl
  | parent fields firstChild =>
    simp only [Node.before, Driver.resolve, Driver.resolveRoot]
    cases driver.resolveFields fields with
    | error fault => rfl
    | ok fields =>
      cases driver.resolve firstChild with
      | error fault => rfl
      | ok firstChild => rfl

def Node.reread (factory : ProtocolFactory) (names : List Text) :
    Node Selector → Node UnresolvedSelector
  | .register fields => .register fields.reread
  | .parent fields firstChild => .parent (fields.reread factory names) (firstChild.reread factory names)

theorem node_reads (factory : ProtocolFactory) {root : Node Selector} (hroot : root.Printable)
    {fuel : Nat} (hfuel : Parser.nodesCount (root.before .nil) ≤ fuel) :
    ∃ driver : Driver, driver.tokens = [] ∧
      Reads (Parser.node (Parser.nodeListOf factory fuel) factory)
        ⟨(root.before .nil).tokens root.registerNames, [], []⟩
        ((root.before .nil).InGrammar factory) (root.reread factory root.registerNames) driver := by
  cases root with
  | register fields =>
    have hrun := Parser.node_register_run (Parser.nodeListOf factory fuel) factory
      hroot.register.1 [] [] []
    refine ⟨_, rfl, (Reads.of_run hrun).iff (iff_of_true trivial ?_)⟩
    exact fun parent hparent => absurd hparent List.not_mem_nil
  | parent fields firstChild =>
    obtain ⟨hfields, hchild, -⟩ := Nodes.Printable.parent hroot
    have hcount : Parser.nodesCount firstChild < fuel := by
      simp [Node.before, Parser.nodesCount] at hfuel
      omega
    have hchildren := Parser.nodeListOf_reads factory hroot.names_words hchild hcount
      (Parser.endsList_closing fields.kind []) [] []
    have hnode := Parser.node_parent_reads factory _ [] [] [] hfields hroot.names_words
      (Parser.reread_nil_iff factory _ firstChild) hchildren
    refine ⟨_, rfl, hnode.iff ?_⟩
    simp [Node.before, Nodes.InGrammar, Nodes.parents]

theorem nodesCount_le (names : List Text) (depth : Nat) (nodes : Nodes Selector) :
    Parser.nodesCount nodes ≤ (Printer.printChildren names depth nodes).length := by
  induction nodes generalizing depth with
  | nil => exact Nat.le_refl _
  | register fields nextSibling ih =>
    have hnext := ih depth
    simp only [Parser.nodesCount, Printer.printChildren, Printer.visitRegister, Printer.streamNodeHeader,
      List.length_append, Bool.false_eq_true, if_false, List.length_singleton]
    omega
  | parent fields firstChild nextSibling ihChild ihNext =>
    have hchild := ihChild (depth + 1)
    have hnext := ihNext depth
    simp only [Parser.nodesCount, Printer.printChildren, Printer.streamParentNode,
      Printer.streamNodeHeader, List.length_append, Bool.false_eq_true, if_false, List.length_cons]
    omega

theorem nodesCount_root_le (root : Node Selector) :
    Parser.nodesCount (root.before .nil) ≤ (makeSit root).length := by
  cases root with
  | register fields =>
    simp only [Node.before, Parser.nodesCount, makeSit, Printer.visitRegister, List.length_append,
      List.length_singleton]
    omega
  | parent fields firstChild =>
    have hchild := nodesCount_le ((Node.parent fields firstChild).registers.map (·.name)) 1 firstChild
    simp only [Node.before, Parser.nodesCount, makeSit, Printer.streamParentNode, List.length_append,
      List.length_cons]
    omega

/-- What parsing a printed tree comes to. -/
theorem parse_makeSit (factory : ProtocolFactory) {root : Node Selector} (hroot : root.Printable) :
    ((root.before .nil).InGrammar factory → ∃ driver : Driver, parse factory (makeSit root) =
      driver.resolveRoot (root.reread factory root.registerNames)) ∧
    (¬(root.before .nil).InGrammar factory →
      ∃ fault, parse factory (makeSit root) = .error fault ∧ fault ≠ .outOfFuel) := by
  have hcount := nodesCount_root_le root
  have hne : makeSit root ≠ [] := by
    intro hnil
    rw [hnil] at hcount
    cases root <;> simp [Node.before, Parser.nodesCount] at hcount
  obtain ⟨driver, hend, hreads⟩ := node_reads factory hroot
    (show Parser.nodesCount (root.before .nil) ≤ (makeSit root).length + 1 by omega)
  rw [parse, if_neg hne, lex_makeSit hroot]
  rcases hreads with ⟨hgrammar, hrun⟩ | ⟨hgrammar, fault, last, hrun, hfault⟩
  · refine ⟨fun _ => ⟨driver, ?_⟩, fun hno => absurd hgrammar hno⟩
    have hpeek : Parser.peek.run driver = .ok driver.tokens.head? driver := rfl
    have hlast : (Parser.require (driver.tokens.head? = none) .syntaxError).run driver =
        .ok () driver := Parser.require_run (by rw [hend]; rfl) _ _
    have hroot : (rootNode factory ((makeSit root).length + 1)).run
        ⟨(root.before .nil).tokens root.registerNames, [], []⟩ =
        (Parser.lift (driver.resolveRoot (root.reread factory root.registerNames))).run driver := by
      simp only [rootNode, EStateM.run_bind, hrun, hpeek, hlast, EStateM.run_get]
    rw [hroot]
    cases driver.resolveRoot (root.reread factory root.registerNames) <;> rfl
  · refine ⟨fun hyes => absurd hyes hgrammar, fun _ => ⟨fault, ?_, hfault⟩⟩
    rw [rootNode, EStateM.run_bind, hrun]

/-! ### The round trip -/

/-- What the tree must be for its text to rebuild it. -/
structure Rebuildable (factory : ProtocolFactory) (root : Node Selector) : Prop where
  noLinker : ∀ parent ∈ root.parents, ¬parent.1.IsLinker
  accessInterface : ∀ parent ∈ root.parents, ∀ protocol,
    parent.1.kind = .accessInterface protocol → parent.1.ignoreForNodePath = false ∧
      (factory (Printer.protocolNote protocol) []).isOk = true
  chain : ∀ parent ∈ root.parents, parent.1.kind = .chain → parent.2 ≠ .nil
  plainName : ∀ parent ∈ root.parents, ¬Parser.brocadeTag <:+: parent.1.name

theorem rebuildable_iff (factory : ProtocolFactory) (root : Node Selector) :
    Rebuildable factory root ↔
      (root.before .nil).InGrammar factory ∧ ∀ parent ∈ root.parents, ¬parent.1.IsLinker := by
  constructor
  · intro h
    refine ⟨fun parent hparent => ?_, h.noLinker⟩
    refine ⟨fun protocol hkind => (h.accessInterface parent hparent protocol hkind).2,
      fun hchain => ?_, h.chain parent hparent, h.plainName parent hparent⟩
    cases hkind : parent.1.kind with
    | accessInterface protocol => exact (h.accessInterface parent hparent protocol hkind).1
    | chain => exact absurd hkind hchain
    | linker selector => exact absurd ⟨selector, hkind⟩ (h.noLinker parent hparent)
  · rintro ⟨hgrammar, hplain⟩
    refine ⟨hplain, fun parent hparent protocol hkind => ?_, fun parent hparent =>
      (hgrammar parent hparent).children, fun parent hparent => (hgrammar parent hparent).plainName⟩
    exact ⟨(hgrammar parent hparent).inPath (by simp [hkind]),
      (hgrammar parent hparent).protocol protocol hkind⟩

theorem roundTrips_iff (factory : ProtocolFactory) (tree : PrintableTree) :
    RoundTrips factory tree ↔ Rebuildable factory tree.root := by
  obtain ⟨root, hroot⟩ := tree
  obtain ⟨haccepted, hrejected⟩ := parse_makeSit factory hroot
  have hbefore : (root.reread factory root.registerNames).before .nil =
      (root.before .nil).reread factory root.registerNames := by
    cases root <;> rfl
  rw [rebuildable_iff]
  constructor
  · rintro ⟨result, hparse, hsame⟩
    have hgrammar : (root.before .nil).InGrammar factory := by
      by_contra hno
      obtain ⟨fault, hfault, -⟩ := hrejected hno
      rw [hfault] at hparse
      exact absurd hparse (by simp)
    refine ⟨hgrammar, fun parent hparent hlinker => ?_⟩
    obtain ⟨driver, hresolve⟩ := haccepted hgrammar
    rw [hparse] at hresolve
    have hnodes : driver.resolve ((root.before .nil).reread factory root.registerNames) =
        .ok (result.before .nil) := by
      rw [← hbefore, resolve_before, ← hresolve]
      rfl
    have hignored := resolve_linkers _ driver hnodes hsame parent hparent hlinker
    obtain ⟨selector, hkind⟩ := hlinker
    rw [(hgrammar parent hparent).inPath (by simp [hkind])] at hignored
    exact absurd hignored (by decide)
  · rintro ⟨hgrammar, hplain⟩
    obtain ⟨driver, hresolve⟩ := haccepted hgrammar
    obtain ⟨resolved, hnodes, hsame⟩ := resolve_plain _ driver hroot hgrammar hplain
    rw [← hbefore, resolve_before] at hnodes
    obtain ⟨result, hresult, rfl⟩ := map_eq_ok.mp hnodes
    exact ⟨result, hresolve.trans hresult, hsame⟩

/-! ### A tree with a linker -/

/-- The nodes as the names checker visits them, with identifiers from `id` on. -/
def Nodes.named (id : Nat) : Nodes Selector → Siblings
  | .nil => .none
  | .register fields nextSibling => .register id fields.name (nextSibling.named (id + 1))
  | .parent fields firstChild nextSibling =>
    .parent ⟨id, fields.name, fields.ignoreForNodePath, []⟩ (firstChild.named (id + 1))
      (nextSibling.named (id + 1 + Parser.nodesCount firstChild))

/-- The children of the top node: a selector register, and a linker with a register. -/
def linkerChildren : Nodes Selector :=
  .register ⟨"Mux_Ctrl".toList, ⟨[0x00], 2, .fixed⟩, true⟩
    (.parent ⟨.linker ⟨.binary, false, 2, 0⟩, "Mux".toList, true⟩
      (.register ⟨"Data".toList, ⟨[0xA0], 4, .fixed⟩, false⟩ .nil) .nil)

/-- An access interface with a linker that is ignored for node paths, as linkers are by default. -/
def linkerTree : PrintableTree where
  root := .parent ⟨.accessInterface (some "Loopback".toList), "Tap".toList, false⟩ linkerChildren
  printable := by
    refine ⟨?_, ?_⟩
    · decide +kernel
    · decide +kernel

/-- The names of the tree are accepted, the factory makes its selector, and its text is a syntax error. -/
theorem linkerTree_not_rebuilt :
    NamesChecker.Accepts ⟨⟨0, "Tap".toList, false, []⟩, linkerChildren.named 1⟩ ∧
      createSelector "Binary".toList 2 0 2 = .ok ⟨.binary, false, 2, 0⟩ ∧
      ¬RoundTrips (fun kindName _ => .ok kindName) linkerTree := by
  refine ⟨by decide +kernel, by decide +kernel, ?_⟩
  have hrejected : parse (fun kindName _ => .ok kindName) (makeSit linkerTree.root) =
      .error .syntaxError := by
    decide +kernel
  rintro ⟨root, hparse, -⟩
  rw [hrejected] at hparse
  exact absurd hparse (by simp)

end Sit

end Mast
