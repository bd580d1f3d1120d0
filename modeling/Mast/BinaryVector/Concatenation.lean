import Mast.BinaryVector.SizedNumbers

/-!
# Concatenated sized numbers

`CreateFromString` reads sized ICL numbers separated by commas, one after the other, and never comes back to the bits it has. The concatenation is right when each number fills its size where it comes; the first one that does not leaves a wrong bit that stays whatever follows.
-/

namespace Mast

open BitPacking Interleaving

namespace BinaryVector

/-- Numbers with a comma, and blanks on both sides of it, after each but the last. -/
def joined (blanks : Nat → Text × Text) : Nat → List SizedNumber → Text
  | _, [] => []
  | _, [n] => n.text
  | i, n :: next :: rest =>
    n.text ++ (blanks i).1 ++ ',' :: ((blanks i).2 ++ joined blanks (i + 1) (next :: rest))

/-- `CreateFromString` gives the chunks of the numbers one after the other. -/
def Concatenates (numbers : List SizedNumber) (text : Text) (p : SizeProperty)
    (dontCare : DontCare) : Prop :=
  ∃ v, createFromString text p dontCare = .ok v ∧ v.bits = numbers.flatMap SizedNumber.chunk ∧
    v.bitsCount = (numbers.map SizedNumber.size).sum

/-- Each number fills its size where it comes, and only spaces and tabs follow a comma. -/
def ReadInPlace (blanks : Nat → Text × Text) : Nat → Nat → List SizedNumber → Prop
  | _, _, [] => True
  | _, offset, [n] => n.FillsAt offset
  | i, offset, n :: next :: rest =>
    n.FillsAt offset ∧ '\n' ∉ (blanks i).2 ∧
      ReadInPlace blanks (i + 1) (offset + n.size) (next :: rest)

/-! ### Blanks -/

theorem trimLeft_spaces {blanks : Text} (hblanks : ∀ c ∈ blanks, isBlank c = true)
    (hspaces : '\n' ∉ blanks) (rest : Text) : trimLeft (blanks ++ rest) = trimLeft rest := by
  unfold trimLeft
  rw [List.dropWhile_append_of_pos]
  intro c hc
  have hmem := of_decide_eq_true (hblanks c hc)
  simp only [List.mem_cons, List.not_mem_nil, or_false] at hmem
  rcases hmem with rfl | rfl | rfl
  · exact absurd hc hspaces
  · rfl
  · rfl

theorem trimLeft_newline {blanks : Text} (hblanks : ∀ c ∈ blanks, isBlank c = true)
    (hnewline : '\n' ∈ blanks) (rest : Text) :
    ∃ more, trimLeft (blanks ++ rest) = '\n' :: more := by
  induction blanks with
  | nil => simp at hnewline
  | cons c blanks ih =>
    have hmem := of_decide_eq_true (hblanks c List.mem_cons_self)
    simp only [List.mem_cons, List.not_mem_nil, or_false] at hmem
    have hbehind := fun hin => ih (fun c hc => hblanks c (List.mem_cons_of_mem _ hc)) hin
    rcases hmem with rfl | rfl | rfl
    · exact ⟨blanks ++ rest, rfl⟩
    · exact hbehind (by simpa using hnewline)
    · exact hbehind (by simpa using hnewline)

theorem appendChunkValues_newline (dontCare : DontCare) (more : Text) (v : BinaryVector) :
    ∃ fault, appendChunkValues dontCare false ('\n' :: more) v = .error fault := by
  have hnext : getNextChunk false ('\n' :: more) =
      .ok (⟨.undefined, false, 0⟩, '\n' :: more, '\n' :: more) := rfl
  have hvalue : chunkValue ⟨.undefined, false, 0⟩ ('\n' :: more) dontCare =
      .error (.invalidArgument "Cannot tell whether value is in decimal, hexadecimal or binary") :=
    rfl
  rw [appendChunkValues, if_neg (List.cons_ne_nil _ _)]
  split
  · exact ⟨_, rfl⟩
  · rename_i info bitsChunk rest hnext'
    rw [hnext] at hnext'
    obtain ⟨rfl, hpair⟩ := Prod.mk.inj (Except.ok.inj hnext')
    obtain ⟨rfl, rfl⟩ := Prod.mk.inj hpair
    split
    · exact ⟨_, rfl⟩
    · rename_i chunk hvalue'
      rw [hvalue] at hvalue'
      cases hvalue'

/-! ### The loop over the numbers -/

section

variable {blanks : Nat → Text × Text}

theorem trimLeft_joined (i : Nat) (n : SizedNumber) (rest : List SizedNumber) (trail : Text) :
    trimLeft (joined blanks i (n :: rest) ++ trail) = joined blanks i (n :: rest) ++ trail := by
  cases rest with
  | nil => exact n.trimLeft_text trail
  | cons next rest =>
    simp only [joined, List.append_assoc]
    exact n.trimLeft_text _

variable {trail : Text} (hbefore : ∀ i, ∀ c ∈ (blanks i).1, isBlank c = true)
  (hafter : ∀ i, ∀ c ∈ (blanks i).2, isBlank c = true) (htrail : ∀ c ∈ trail, isBlank c = true)
  (dontCare : DontCare)

include hbefore in
/-- The first number is read; what follows it is read next if no newline comes after the comma. -/
theorem appendChunkValues_joined (firstChunk : Bool) {i : Nat} {n next : SizedNumber}
    {rest : List SizedNumber} (hsize : n.size < uint32Size)
    (hdigits : n.digitBits.length < uint32Size) {v v' : BinaryVector}
    (hrun : (appendChunkValue n.chunkValue).run v = .ok () v') :
    appendChunkValues dontCare firstChunk (joined blanks i (n :: next :: rest) ++ trail) v =
      appendChunkValues dontCare false
        (trimLeft ((blanks i).2 ++ (joined blanks (i + 1) (next :: rest) ++ trail))) v' := by
  have hstep := n.appendChunkValues_text firstChunk
    (',' :: ((blanks i).2 ++ (joined blanks (i + 1) (next :: rest) ++ trail))) hsize
    (hbefore i) (by rintro c hc; cases hc; rfl) dontCare hdigits hrun
  simpa [joined, afterComma] using hstep

include htrail in
theorem appendChunkValues_last (firstChunk : Bool) {i : Nat} {n : SizedNumber}
    (hsize : n.size < uint32Size) (hdigits : n.digitBits.length < uint32Size)
    {v v' : BinaryVector} (hrun : (appendChunkValue n.chunkValue).run v = .ok () v') :
    appendChunkValues dontCare firstChunk (joined blanks i [n] ++ trail) v = .ok v' := by
  have hstep := n.appendChunkValues_text firstChunk [] hsize htrail (by simp) dontCare
    hdigits hrun
  rw [List.append_nil] at hstep
  exact hstep.trans (appendChunkValues_nil dontCare false v')

include hbefore hafter htrail

/-- The bits of the first number stay whatever numbers come next. -/
theorem appendChunkValues_keeps (firstChunk : Bool) {n : SizedNumber} {rest : List SizedNumber}
    (hdigits : ∀ m ∈ n :: rest, m.digitBits.length < uint32Size) {i : Nat}
    {v v₁ v' : BinaryVector} (hfree : v.sizeProperty ≠ .fixed)
    (hbound : v.usedBits + (n.size + (rest.map SizedNumber.size).sum) < uint32Size)
    (hrun : (appendChunkValue n.chunkValue).run v = .ok () v₁) (hextends : Extends v v₁ n.size)
    (hread : appendChunkValues dontCare firstChunk (joined blanks i (n :: rest) ++ trail) v = .ok v') :
    v₁.bits <+: v'.bits := by
  induction rest generalizing n i v v₁ firstChunk with
  | nil =>
    rw [appendChunkValues_last htrail dontCare firstChunk (by omega) (hdigits n List.mem_cons_self)
      hrun] at hread
    cases hread
    exact List.prefix_rfl
  | cons next rest ih =>
    rw [List.map_cons, List.sum_cons] at hbound
    have hused := hextends.usedBits
    have hfree₁ : v₁.sizeProperty ≠ .fixed := by rwa [hextends.sizeProperty]
    obtain ⟨v₂, hrun₂, hextends₂⟩ :=
      next.appendChunkValue_extendsBy hextends.exactBytes hfree₁ (by omega)
    rw [appendChunkValues_joined hbefore dontCare firstChunk (by omega)
      (hdigits n List.mem_cons_self) hrun] at hread
    by_cases hspaces : '\n' ∈ (blanks i).2
    · obtain ⟨more, hmore⟩ := trimLeft_newline (hafter i) hspaces
        (joined blanks (i + 1) (next :: rest) ++ trail)
      obtain ⟨fault, hfault⟩ := appendChunkValues_newline dontCare more v₁
      rw [hmore, hfault] at hread
      cases hread
    · rw [trimLeft_spaces (hafter i) hspaces, trimLeft_joined] at hread
      exact hextends₂.bits.trans (ih false (fun m hm => hdigits m (List.mem_cons_of_mem _ hm)) hfree₁
        (by omega) hrun₂ hextends₂ hread)

theorem appendChunkValues_reads (firstChunk : Bool) {numbers : List SizedNumber}
    (hdigits : ∀ n ∈ numbers, n.digitBits.length < uint32Size) {i : Nat} {l : List Bool}
    (hne : numbers ≠ []) (hbound : l.length + (numbers.map SizedNumber.size).sum < uint32Size)
    (hplace : ReadInPlace blanks i l.length numbers) :
    appendChunkValues dontCare firstChunk (joined blanks i numbers ++ trail) (ofBits l .notFixed) =
      .ok (ofBits (l ++ numbers.flatMap SizedNumber.chunk) .notFixed) := by
  induction numbers generalizing i l firstChunk with
  | nil => exact absurd rfl hne
  | cons n rest ih =>
    have hfirst := hdigits n List.mem_cons_self
    rw [List.map_cons, List.sum_cons] at hbound
    cases rest with
    | nil =>
      have hrun := n.appendChunkValue_fills hplace (by omega)
      rw [appendChunkValues_last htrail dontCare firstChunk (by omega) hfirst hrun]
      simp
    | cons next rest =>
      obtain ⟨hfills, hspaces, hplace⟩ := hplace
      have hrun := n.appendChunkValue_fills hfills (by omega)
      have hlength : (l ++ n.chunk).length = l.length + n.size := by
        rw [List.length_append, n.chunk_length]
      have hrest := ih false (fun m hm => hdigits m (List.mem_cons_of_mem _ hm))
        (List.cons_ne_nil _ _) (l := l ++ n.chunk) (by omega) (by rwa [hlength])
      rw [appendChunkValues_joined hbefore dontCare firstChunk (by omega) hfirst hrun,
        trimLeft_spaces (hafter i) hspaces, trimLeft_joined, hrest, List.append_assoc]
      rfl

/-- The first number that does not fill its size leaves a wrong bit; a newline is refused. -/
theorem readInPlace_of_reads (firstChunk : Bool) {numbers : List SizedNumber}
    (hdigits : ∀ n ∈ numbers, n.digitBits.length < uint32Size) {i : Nat} {l : List Bool}
    (hbound : l.length + (numbers.map SizedNumber.size).sum < uint32Size) {v : BinaryVector}
    (hread : appendChunkValues dontCare firstChunk (joined blanks i numbers ++ trail)
      (ofBits l .notFixed) = .ok v)
    (hbits : v.bits = l ++ numbers.flatMap SizedNumber.chunk) :
    ReadInPlace blanks i l.length numbers := by
  induction numbers generalizing i l firstChunk with
  | nil => exact trivial
  | cons n rest ih =>
    have hrest : ∀ m ∈ rest, m.digitBits.length < uint32Size :=
      fun m hm => hdigits m (List.mem_cons_of_mem _ hm)
    have hfirst := hdigits n List.mem_cons_self
    rw [List.map_cons, List.sum_cons] at hbound
    have hfills : n.FillsAt l.length := by
      by_contra hmisses
      obtain ⟨hone, v₁, hrun, hextends, hzero⟩ := n.appendChunkValue_misses hmisses (by omega)
      have hkeeps := appendChunkValues_keeps hbefore hafter htrail dontCare firstChunk hdigits
        (ofBits_sizeProperty l .notFixed ▸ SizeProperty.noConfusion) hbound hrun hextends hread
      obtain ⟨added, hadded⟩ := hkeeps
      obtain ⟨hlt, -⟩ := List.getElem?_eq_some_iff.mp hzero
      rw [← @List.getElem?_append_left _ _ added _ hlt, hadded, hbits, List.flatMap_cons,
        List.getElem?_append_right (Nat.le_refl _), Nat.sub_self,
        List.getElem?_append_left (List.getElem?_eq_some_iff.mp hone).1, hone] at hzero
      cases hzero
    cases rest with
    | nil => exact hfills
    | cons next rest =>
      have hrun := n.appendChunkValue_fills hfills (by omega)
      have hlength : (l ++ n.chunk).length = l.length + n.size := by
        rw [List.length_append, n.chunk_length]
      rw [appendChunkValues_joined hbefore dontCare firstChunk (by omega) hfirst hrun] at hread
      have hspaces : '\n' ∉ (blanks i).2 := by
        intro hnewline
        obtain ⟨more, hmore⟩ := trimLeft_newline (hafter i) hnewline
          (joined blanks (i + 1) (next :: rest) ++ trail)
        obtain ⟨fault, hfault⟩ := appendChunkValues_newline dontCare more
          (ofBits (l ++ n.chunk) .notFixed)
        rw [hmore, hfault] at hread
        cases hread
      rw [trimLeft_spaces (hafter i) hspaces, trimLeft_joined] at hread
      have hplace := ih false hrest (l := l ++ n.chunk) (by omega) hread
        (by rw [hbits, List.append_assoc]; rfl)
      rw [hlength] at hplace
      exact ⟨hfills, hspaces, hplace⟩

end

/-! ### The count of the bits -/

section

variable {α β : Type}

def CountsBits (mutation : Mutation α) : Prop :=
  ∀ v, v.usedBits < uint32Size → ∀ a v', mutation.run v = .ok a v' → v'.usedBits < uint32Size

theorem CountsBits.pure (a : α) : CountsBits (pure a) := by
  intro v hv a' v' hrun
  rw [EStateM.run_pure] at hrun
  cases hrun
  exact hv

theorem CountsBits.throw (fault : Fault) : CountsBits (throw fault : Mutation α) := by
  intro v _ a v' hrun
  exact absurd hrun (by rintro ⟨⟩)

theorem CountsBits.get : CountsBits get := by
  intro v hv a v' hrun
  rw [EStateM.run_get] at hrun
  cases hrun
  exact hv

theorem CountsBits.set {v' : BinaryVector} (hv' : v'.usedBits < uint32Size) :
    CountsBits (set v' : Mutation PUnit) := by
  intro v _ a v'' hrun
  rw [EStateM.run_set] at hrun
  cases hrun
  exact hv'

theorem CountsBits.bind {first : Mutation α} {rest : α → Mutation β} (hfirst : CountsBits first)
    (hrest : ∀ a, CountsBits (rest a)) : CountsBits (first >>= rest) := by
  intro v hv b v' hrun
  rw [EStateM.run_bind] at hrun
  split at hrun
  · rename_i a v₁ hrun₁
    exact hrest a v₁ (hfirst v hv a v₁ hrun₁) b v' hrun
  · cases hrun

theorem check_countsBits (condition : Prop) [Decidable condition] (fault : Fault) :
    CountsBits (check condition fault) := by
  unfold check
  split
  · exact CountsBits.pure ()
  · exact CountsBits.throw fault

theorem checkFixedSize_countsBits : CountsBits checkFixedSize :=
  CountsBits.get.bind fun _ => check_countsBits _ _

theorem append8_countsBits (value : Byte) (numberOfBits : Nat) (alignment : BitsAlignment) :
    CountsBits (append8 value numberOfBits alignment) := by
  refine (check_countsBits _ _).bind fun _ => checkFixedSize_countsBits.bind fun _ =>
    (check_countsBits _ _).bind fun _ => CountsBits.get.bind fun v => ?_
  refine (check_countsBits _ _).bind fun _ => CountsBits.set ?_
  rw [pushBits_usedBits]
  exact Nat.mod_lt _ (by decide)

theorem appendBytes_countsBits (bytes : List Byte) (bitsToAppend : Nat) :
    CountsBits (appendBytes bytes bitsToAppend) := by
  induction bytes generalizing bitsToAppend with
  | nil =>
    unfold appendBytes
    split
    · exact CountsBits.pure ()
    · exact CountsBits.throw _
  | cons byte rest ih =>
    unfold appendBytes
    split
    · exact (append8_countsBits _ _ _).bind fun _ => ih _
    · split
      · exact append8_countsBits _ _ _
      · exact CountsBits.pure ()

theorem append_countsBits (rhs : BinaryVector) : CountsBits (append rhs) :=
  checkFixedSize_countsBits.bind fun _ => appendBytes_countsBits _ _

theorem appendBits_countsBits (bitIsOne : Bool) (count : Nat) :
    CountsBits (appendBits bitIsOne count) := by
  intro v hv a v' hrun
  have hinsert : (v.insertBytes (bitByte bitIsOne) (count / 8)).usedBits < uint32Size :=
    Nat.mod_lt _ (by decide)
  rw [appendBits_run hv] at hrun
  split at hrun
  · cases hrun
    exact hinsert
  · exact append8_countsBits _ _ _ _ hinsert a v' hrun

theorem orThrow_countsBits (value : Except Fault α) : CountsBits (orThrow value) := by
  cases value with
  | error fault => exact CountsBits.throw fault
  | ok a => exact CountsBits.pure a

theorem appendChunkValue_countsBits (chunk : ChunkValue) : CountsBits (appendChunkValue chunk) := by
  have hkept := (orThrow_countsBits (if chunk.inverted then build chunk.vector toggleBits
    else .ok chunk.vector)).bind append_countsBits
  rw [appendChunkValue]
  split
  · exact (appendBits_countsBits _ _).bind fun _ => hkept
  · exact (CountsBits.pure ()).bind fun _ => hkept

/-- Whatever the text, the bits it gives are counted in 32 bits. -/
theorem appendChunkValues_countsBits {dontCare : DontCare} {firstChunk : Bool} {text : Text}
    {v v' : BinaryVector} (hv : v.usedBits < uint32Size)
    (hread : appendChunkValues dontCare firstChunk text v = .ok v') : v'.usedBits < uint32Size := by
  fun_induction appendChunkValues dontCare firstChunk text v with
  | case1 => cases hread; exact hv
  | case2 => cases hread
  | case3 => cases hread
  | case4 => cases hread
  | case5 firstChunk text v _ info bitsChunk rest _ chunk _ v₁ hbuild ih =>
    refine ih ?_ hread
    unfold build at hbuild
    split at hbuild
    · rename_i w hrun
      cases hbuild
      exact appendChunkValue_countsBits chunk v hv () v₁ hrun
    · cases hbuild

end

/-! ### The whole text -/

/-- The digits of each number fit in a vector, so do all the numbers, and each one fills its size where it comes. -/
def Readable (blanks : Nat → Text × Text) (numbers : List SizedNumber) : Prop :=
  (∀ n ∈ numbers, n.digitBits.length < uint32Size) ∧
    (numbers.map SizedNumber.size).sum < uint32Size ∧ ReadInPlace blanks 0 0 numbers

theorem joined_head (blanks : Nat → Text × Text) {numbers : List SizedNumber} (hne : numbers ≠ [])
    (trail : Text) :
    ∃ c rest, joined blanks 0 numbers ++ trail = c :: rest ∧ isBlank c = false := by
  obtain ⟨n, rest, rfl⟩ := List.exists_cons_of_ne_nil hne
  obtain ⟨c, more, htext, hblank⟩ := n.text_eq
  cases rest <;> exact ⟨c, _, by simp only [joined, htext, List.cons_append]; rfl, hblank⟩

/-- What `trimLeft` skips, the loop over blanks that follows it would skip. -/
theorem dropWhile_trimLeft (text : Text) :
    (trimLeft text).dropWhile isBlank = text.dropWhile isBlank := by
  induction text with
  | nil => rfl
  | cons c text ih =>
    by_cases hspace : c = ' ' ∨ c = '\t'
    · have hblank : isBlank c = true := by rcases hspace with rfl | rfl <;> rfl
      have hskip : trimLeft (c :: text) = trimLeft text :=
        List.dropWhile_cons_of_pos (decide_eq_true hspace)
      rw [hskip, ih, List.dropWhile_cons_of_pos hblank]
    · have hkeep : trimLeft (c :: text) = c :: text :=
        List.dropWhile_cons_of_neg (by simpa using hspace)
      rw [hkeep]

theorem createFromString_joined {blanks : Nat → Text × Text} {lead : Text}
    (hlead : ∀ c ∈ lead, isBlank c = true) {numbers : List SizedNumber} (hne : numbers ≠ [])
    (trail : Text) (p : SizeProperty) (dontCare : DontCare) (v : BinaryVector) :
    createFromString (lead ++ (joined blanks 0 numbers ++ trail)) p dontCare = .ok v ↔
      ∃ v₁, appendChunkValues dontCare true (joined blanks 0 numbers ++ trail) empty = .ok v₁ ∧
        { v₁ with sizeProperty := p } = v := by
  obtain ⟨c, rest, hhead, hblank⟩ := joined_head blanks hne trail
  have hskip : (trimLeft (lead ++ c :: rest)).dropWhile isBlank = c :: rest := by
    rw [dropWhile_trimLeft, List.dropWhile_append_of_pos hlead,
      List.dropWhile_cons_of_neg (by rw [hblank]; exact Bool.false_ne_true)]
  have hsome : trimLeft (lead ++ c :: rest) ≠ [] := by
    intro hnone
    rw [hnone] at hskip
    cases hskip
  rw [hhead]
  simp only [createFromString, if_neg hsome, hskip]
  cases appendChunkValues dontCare true (c :: rest) empty with
  | error fault => simp
  | ok v₁ => simp

theorem createFromString_blank {blank : Text} (hblank : ∀ c ∈ blank, isBlank c = true)
    (p : SizeProperty) (dontCare : DontCare) :
    ∃ v, createFromString blank p dontCare = .ok v ∧ v.bits = [] ∧ v.bitsCount = 0 := by
  have hskip : (trimLeft blank).dropWhile isBlank = [] := by
    rw [dropWhile_trimLeft]
    exact List.dropWhile_eq_nil_iff.mpr hblank
  simp only [createFromString, hskip, appendChunkValues_nil]
  split <;> exact ⟨_, rfl, rfl, rfl⟩

section

variable {numbers : List SizedNumber} {blanks : Nat → Text × Text} {lead trail : Text}
  (hlead : ∀ c ∈ lead, isBlank c = true)
  (hbefore : ∀ i, ∀ c ∈ (blanks i).1, isBlank c = true)
  (hafter : ∀ i, ∀ c ∈ (blanks i).2, isBlank c = true) (htrail : ∀ c ∈ trail, isBlank c = true)
  {p : SizeProperty} {dontCare : DontCare}

include hlead hbefore hafter htrail

theorem Readable.concatenates (hreadable : Readable blanks numbers) :
    Concatenates numbers (lead ++ (joined blanks 0 numbers ++ trail)) p dontCare := by
  by_cases hne : numbers = []
  · subst hne
    have hblank : ∀ c ∈ lead ++ ([] ++ trail), isBlank c = true := by
      intro c hc
      exact (List.mem_append.mp hc).elim (hlead c) (htrail c)
    exact createFromString_blank hblank p dontCare
  · obtain ⟨hdigits, hsum, hplace⟩ := hreadable
    have hread := appendChunkValues_reads (l := []) hbefore hafter htrail dontCare true hdigits hne
      (by rwa [List.length_nil, Nat.zero_add]) hplace
    have hlength : (numbers.flatMap SizedNumber.chunk).length =
        (numbers.map SizedNumber.size).sum := by
      rw [List.length_flatMap]
      simp only [SizedNumber.chunk_length]
    exact ⟨_, (createFromString_joined hlead hne trail p dontCare _).mpr ⟨_, hread, rfl⟩,
      bits_ofBits _ p, hlength⟩

theorem Concatenates.readable (hdigits : ∀ n ∈ numbers, n.digitBits.length < uint32Size)
    (hright : Concatenates numbers (lead ++ (joined blanks 0 numbers ++ trail)) p dontCare) :
    Readable blanks numbers := by
  by_cases hne : numbers = []
  · subst hne
    exact ⟨hdigits, by decide, trivial⟩
  · obtain ⟨v, hcreate, hbits, hcount⟩ := hright
    obtain ⟨v₁, hread, rfl⟩ := (createFromString_joined hlead hne trail p dontCare v).mp hcreate
    have hsum : (numbers.map SizedNumber.size).sum < uint32Size := by
      have hcounted := appendChunkValues_countsBits (show empty.usedBits < uint32Size by decide) hread
      rwa [← hcount]
    refine ⟨hdigits, hsum, ?_⟩
    exact readInPlace_of_reads (l := []) hbefore hafter htrail dontCare true hdigits
      (by rwa [List.length_nil, Nat.zero_add]) hread hbits

/-- Sized numbers are concatenated as they should when no count overflows, no newline follows a comma and no number is extended by eight ones or more behind an incomplete byte; otherwise they are not, unless a number has so many digits that their count overflows. -/
theorem createFromString_concatenates :
    (Readable blanks numbers →
        Concatenates numbers (lead ++ (joined blanks 0 numbers ++ trail)) p dontCare) ∧
      ((∀ n ∈ numbers, n.digitBits.length < uint32Size) →
        Concatenates numbers (lead ++ (joined blanks 0 numbers ++ trail)) p dontCare →
          Readable blanks numbers) :=
  ⟨fun hreadable => hreadable.concatenates hlead hbefore hafter htrail,
    fun hdigits hright => hright.readable hlead hbefore hafter htrail hdigits⟩

end

/-- `1'b1`. -/
def oneBit : SizedNumber :=
  ⟨false, 1, 'b', ['1'], by decide, by decide, by decide, List.forall_mem_singleton.mpr (by decide)⟩

/-- `9'b1`: nine ones. -/
def nineOnes : SizedNumber :=
  ⟨false, 9, 'b', ['1'], by decide, by decide, by decide, List.forall_mem_singleton.mpr (by decide)⟩

/-- `9'b1, 1'b1`: eight ones are copied in front of the first digit, at the start of a byte. -/
theorem createFromString_concatenates_ten :
    Concatenates [nineOnes, oneBit] ([] ++ (joined (fun _ => ([], [' '])) 0 [nineOnes, oneBit] ++ []))
      .notFixed .isError :=
  (createFromString_concatenates (by simp) (by simp) (by simp [isBlank]) (by simp)).1
    ⟨by decide, by decide, .inl (by decide), by decide, .inr (.inr (by decide))⟩

/-- `1'b1, 9'b1`: eight ones are copied behind a single bit. -/
theorem ten_ones_not_concatenated :
    ¬∀ (numbers : List SizedNumber) (blanks : Nat → Text × Text) (p : SizeProperty)
      (dontCare : DontCare), (∀ i, ∀ c ∈ (blanks i).1, isBlank c = true) →
      (∀ i, ∀ c ∈ (blanks i).2, isBlank c = true) →
      Concatenates numbers (joined blanks 0 numbers) p dontCare := by
  intro hclaim
  have hright := hclaim [oneBit, nineOnes] (fun _ => ([], [' '])) .notFixed .isError (by simp)
    (by simp [isBlank])
  rw [← List.append_nil (joined _ 0 _), ← List.nil_append (_ ++ [])] at hright
  have hreadable := hright.readable (by simp) (by simp) (by simp [isBlank]) (by simp) (by decide)
  obtain ⟨-, -, -, -, hfills⟩ := hreadable
  rcases hfills with hwhole | hzero | hfew
  · exact absurd hwhole (by decide)
  · exact absurd hzero (by decide)
  · exact absurd hfew (by decide)

end BinaryVector
end Mast
