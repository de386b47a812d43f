import Peephole.Proofs.Layout.LaidOut

/-!
# Proofs/Layout/Locals — the locals of a match side

No local is declared twice.  `Fresh` collects the locals that the lines from some element on may
declare: what an element declares is fresh before it and no longer fresh after it, and nothing
becomes fresh again (`PlacesCursor.fresh_of_fresh`, `Capturing.fresh_of_fresh`).  The numbers of
later captures need the most care, for a rule may itself capture `x_2`.

All locals are words of C, so the lines can be read (`LaidOut.readable`).
-/

namespace Peephole

theorem IsElement.isIdentifier {node : Node} (h : IsElement node)
    (hkind : node.kind = .namedElement) : IsIdentifier node.text := by
  obtain ⟨hid, -⟩ | - := h
  · exact hid
  · simp at hkind

namespace Layout

/-! ## Numbers of later captures -/

/-- **A later capture gets a higher number and a name of its own.** -/
theorem freshNumber_spec (names : List String) (name : String) (used : Nat) :
    used < freshNumber names name used ∧
      name ++ "_" ++ toString (freshNumber names name used) ∉ names := by
  have hspell : Function.Injective fun k : Nat => name ++ "_" ++ toString k :=
    fun _ _ heq => (numbered_inj heq).2
  obtain ⟨number, hfind, hlt, hfree⟩ := exists_find?_range'_free hspell names used
  rw [freshNumber, hfind]
  exact ⟨hlt, hfree⟩

/-! ## Fresh locals -/

/-- **A local that lines may still declare**, from the element at `position` on, with the names of
elements taken and the numbers of captures given so far. -/
inductive Fresh (names : List String) (position : Nat) (taken : List String)
    (numbers : String → Option Nat) : String → Prop where
  | named {name : String} (h : IsIdentifier name) (hnew : name ∉ taken) :
    Fresh names position taken numbers (cursorLocal name)
  | unnamed {later : Nat} (h : position ≤ later) :
    Fresh names position taken numbers (cursorLocal (toString (later + 1)))
  | first {name : String} (hmem : name ∈ names) (hnew : numbers name = none) :
    Fresh names position taken numbers (argumentLocal name)
  | again {name : String} {number : Nat} (hnew : name ++ "_" ++ toString number ∉ names)
    (hlater : ∀ used, numbers name = some used → used < number) :
    Fresh names position taken numbers (argumentLocal (name ++ "_" ++ toString number))

variable {names : List String} {position : Nat} {taken taken' : List String}
  {numbers after : String → Option Nat} {name cursor : String} {node : Node}

/-- The locals of new nodes are never free for elements: they start differently. -/
theorem not_fresh_nodeLocal (n : Nat) : ¬ Fresh names position taken numbers (nodeLocal n) := by
  generalize hname : nodeLocal n = name
  rintro (_ | _ | _ | _)
  · exact nodeLocal_ne_cursorLocal n _ hname
  · exact nodeLocal_ne_cursorLocal n _ hname
  · exact nodeLocal_ne_argumentLocal n _ hname
  · exact nodeLocal_ne_argumentLocal n _ hname

/-! ## Cursors -/

/-- The cursor of an element was free before it. -/
theorem PlacesCursor.fresh (helement : IsElement node)
    (h : PlacesCursor position taken node cursor taken') :
    Fresh names position taken numbers cursor := by
  rcases h with ⟨hkind, hnew⟩ | -
  · exact .named (helement.isIdentifier hkind) hnew
  · exact .unnamed (Nat.le_refl position)

/-- What is fresh behind an element was fresh before, and is not the cursor of the element. -/
theorem PlacesCursor.fresh_of_fresh (helement : IsElement node)
    (h : PlacesCursor position taken node cursor taken')
    (hfresh : Fresh names (position + 1) taken' numbers name) :
    Fresh names position taken numbers name ∧ name ≠ cursor := by
  rcases h with ⟨hkind, -⟩ | -
  · have hid := helement.isIdentifier hkind
    rcases hfresh with ⟨hname, hnew⟩ | @⟨later, hle⟩ | ⟨hmem, hnew⟩ | ⟨hnew, hlater⟩
    · rw [List.mem_append, List.mem_singleton, not_or] at hnew
      exact ⟨.named hname hnew.1, fun heq => hnew.2 (cursorLocal_inj heq)⟩
    · exact ⟨.unnamed (by omega), fun heq => hid.ne_toString _ (cursorLocal_inj heq).symm⟩
    · exact ⟨.first hmem hnew, (cursorLocal_ne_argumentLocal _ _).symm⟩
    · exact ⟨.again hnew hlater, (cursorLocal_ne_argumentLocal _ _).symm⟩
  · rcases hfresh with ⟨hname, hnew⟩ | @⟨later, hle⟩ | ⟨hmem, hnew⟩ | ⟨hnew, hlater⟩
    · exact ⟨.named hname hnew, fun heq => hname.ne_toString _ (cursorLocal_inj heq)⟩
    · refine ⟨.unnamed (by omega), fun heq => ?_⟩
      have := toString_nat_inj (cursorLocal_inj heq)
      omega
    · exact ⟨.first hmem hnew, (cursorLocal_ne_argumentLocal _ _).symm⟩
    · exact ⟨.again hnew hlater, (cursorLocal_ne_argumentLocal _ _).symm⟩

/-! ## Captures -/

/-- After the first capture of a name. -/
theorem Fresh.of_first {captured : String} (hmem : captured ∈ names)
    (hnone : numbers captured = none)
    (h : Fresh names position taken (Function.update numbers captured (some 1)) name) :
    Fresh names position taken numbers name ∧ name ≠ argumentLocal captured := by
  rcases h with ⟨hname, hnew⟩ | hle | @⟨other, hother, hnew⟩ | @⟨other, number, hnew, hlater⟩
  · exact ⟨.named hname hnew, cursorLocal_ne_argumentLocal _ _⟩
  · exact ⟨.unnamed hle, cursorLocal_ne_argumentLocal _ _⟩
  · have hne : other ≠ captured := by
      rintro rfl
      simp at hnew
    rw [Function.update_of_ne hne] at hnew
    exact ⟨.first hother hnew, fun heq => hne (argumentLocal_inj heq)⟩
  · refine ⟨.again hnew fun used hused => ?_, fun heq => ?_⟩
    · have hne : other ≠ captured := by
        rintro rfl
        simp [hnone] at hused
      exact hlater used (by rwa [Function.update_of_ne hne])
    · rw [argumentLocal_inj heq] at hnew
      exact hnew hmem

/-- After a later capture of a name. -/
theorem Fresh.of_again {captured : String} {used : Nat} (hused : numbers captured = some used)
    (h : Fresh names position taken
      (Function.update numbers captured (some (freshNumber names captured used))) name) :
    Fresh names position taken numbers name ∧
      name ≠ argumentLocal (captured ++ "_" ++ toString (freshNumber names captured used)) := by
  obtain ⟨hlt, hfree⟩ := freshNumber_spec names captured used
  rcases h with ⟨hname, hnew⟩ | hle | @⟨other, hother, hnew⟩ | @⟨other, number, hnew, hlater⟩
  · exact ⟨.named hname hnew, cursorLocal_ne_argumentLocal _ _⟩
  · exact ⟨.unnamed hle, cursorLocal_ne_argumentLocal _ _⟩
  · have hne : other ≠ captured := by
      rintro rfl
      simp at hnew
    rw [Function.update_of_ne hne] at hnew
    refine ⟨.first hother hnew, fun heq => ?_⟩
    rw [argumentLocal_inj heq] at hother
    exact hfree hother
  · by_cases hcaptured : other = captured
    · subst hcaptured
      have hnumber := hlater _ (Function.update_self _ _ _)
      refine ⟨.again hnew fun earlier hearlier => ?_, fun heq => ?_⟩
      · rw [hused, Option.some.injEq] at hearlier
        omega
      · have := (numbered_inj (argumentLocal_inj heq)).2
        omega
    · refine ⟨.again hnew fun earlier hearlier => ?_, fun heq => ?_⟩
      · exact hlater earlier (by rwa [Function.update_of_ne hcaptured])
      · exact hcaptured (numbered_inj (argumentLocal_inj heq)).1

section Capturing

variable {texts locals : List String} {equalities : List MatchStep}

/-- What is fresh behind captures was fresh before, and is none of their locals. -/
theorem Capturing.fresh_of_fresh (h : Capturing names numbers texts locals equalities after)
    (htexts : ∀ text ∈ texts, text ∈ names) (hfresh : Fresh names position taken after name) :
    Fresh names position taken numbers name ∧ name ∉ locals := by
  induction h with
  | done => exact ⟨hfresh, by simp⟩
  | first hnew _ ih =>
    rw [List.forall_mem_cons] at htexts
    obtain ⟨hmore, hnotin⟩ := ih htexts.2 hfresh
    obtain ⟨hbefore, hne⟩ := hmore.of_first htexts.1 hnew
    exact ⟨hbefore, List.not_mem_cons_of_ne_of_not_mem hne hnotin⟩
  | again hused _ ih =>
    rw [List.forall_mem_cons] at htexts
    obtain ⟨hmore, hnotin⟩ := ih htexts.2 hfresh
    obtain ⟨hbefore, hne⟩ := hmore.of_again hused
    exact ⟨hbefore, List.not_mem_cons_of_ne_of_not_mem hne hnotin⟩

/-- The locals of captures are fresh before them. -/
theorem Capturing.fresh (h : Capturing names numbers texts locals equalities after)
    (htexts : ∀ text ∈ texts, text ∈ names) :
    ∀ name ∈ locals, Fresh names position taken numbers name := by
  induction h with
  | done => simp
  | first hnew _ ih =>
    rw [List.forall_mem_cons] at htexts ⊢
    exact ⟨.first htexts.1 hnew, fun name hname =>
      ((ih htexts.2 name hname).of_first htexts.1 hnew).1⟩
  | @again _ _ captured used _ _ _ hused _ ih =>
    rw [List.forall_mem_cons] at htexts ⊢
    obtain ⟨hlt, hfree⟩ := freshNumber_spec names captured used
    refine ⟨.again hfree fun earlier hearlier => ?_, fun name hname =>
      ((ih htexts.2 name hname).of_again hused).1⟩
    rwa [← Option.some.inj (hused.symm.trans hearlier)]

/-- The locals of captures are distinct. -/
theorem Capturing.nodup (h : Capturing names numbers texts locals equalities after)
    (htexts : ∀ text ∈ texts, text ∈ names) : locals.Nodup := by
  induction h with
  | done => exact List.nodup_nil
  | first hnew hmore ih =>
    rw [List.forall_mem_cons] at htexts
    refine List.nodup_cons.2 ⟨fun hmem => ?_, ih htexts.2⟩
    have hfresh : Fresh names 0 [] _ _ := hmore.fresh htexts.2 _ hmem
    exact (hfresh.of_first htexts.1 hnew).2 rfl
  | again hused hmore ih =>
    rw [List.forall_mem_cons] at htexts
    refine List.nodup_cons.2 ⟨fun hmem => ?_, ih htexts.2⟩
    have hfresh : Fresh names 0 [] _ _ := hmore.fresh htexts.2 _ hmem
    exact (hfresh.of_again hused).2 rfl

/-- Each capture has its local. -/
theorem Capturing.length_eq (h : Capturing names numbers texts locals equalities after) :
    locals.length = texts.length := by
  induction h with
  | done => rfl
  | first _ _ ih => rw [List.length_cons, List.length_cons, ih]
  | again _ _ ih => rw [List.length_cons, List.length_cons, ih]

end Capturing

/-! ## Lines that can be read -/

/-- A word with a number behind it is a word. -/
theorem wordChars_numbered {name : String} (h : WordChars name) (number : Nat) :
    WordChars (name ++ "_" ++ toString number) := by
  intro c hc
  rw [String.toList_append, String.toList_append, List.mem_append, List.mem_append] at hc
  obtain (hc | hc) | hc := hc
  · exact h c hc
  · obtain rfl : c = '_' := List.mem_singleton.1 hc
    decide
  · exact wordChars_toString number c hc

/-- The locals for captures are names, and the equalities of repeated ones read back. -/
theorem Capturing.readable {texts locals : List String} {equalities : List MatchStep}
    (h : Capturing names numbers texts locals equalities after)
    (hwords : ∀ text ∈ texts, WordChars text) (values : List String) :
    (∀ name ∈ locals, IsName name) ∧ ∀ step ∈ equalities, step.Readable values := by
  induction h with
  | done => simp
  | first _ _ ih =>
    rw [List.forall_mem_cons] at hwords
    obtain ⟨hlocals, hequalities⟩ := ih hwords.2
    exact ⟨List.forall_mem_cons.2 ⟨isName_argumentLocal hwords.1, hlocals⟩, hequalities⟩
  | @again _ _ captured used _ _ _ _ _ ih =>
    rw [List.forall_mem_cons] at hwords
    obtain ⟨hlocals, hequalities⟩ := ih hwords.2
    have hlater :=
      isName_argumentLocal (wordChars_numbered hwords.1 (freshNumber names captured used))
    exact ⟨List.forall_mem_cons.2 ⟨hlater, hlocals⟩,
      List.forall_mem_cons.2 ⟨⟨hlater, isName_argumentLocal hwords.1⟩, hequalities⟩⟩

/-- The test for an element reads back. -/
theorem readable_guardStep {bindings : List Binding} {hasCaptures : Bool} {opcode : Option Opcode}
    {locals values : List String} (helement : IsElement node)
    (hopcode : elementOpcode bindings position node hasCaptures = .ok opcode)
    (hvalues : ∀ value ∈ values, WordChars value) (hcursor : IsName cursor)
    (hlocals : ∀ name ∈ locals, IsName name) :
    (guardStep cursor locals opcode).Readable values := by
  obtain ⟨-, rfl⟩ | ⟨body, captures, -, -, hasked⟩ := elementOpcode_cases helement hopcode
  · exact hcursor
  · obtain ⟨slot, -, rfl⟩ | ⟨-, rfl, hid⟩ := hasked
    · refine ⟨?_, hcursor, hlocals⟩
      rw [Opcode.resolve]
      cases hvalue : values[slot]? with
      | none => exact fun c hc => by simp at hc
      | some value => exact hvalues value (List.mem_of_getElem? hvalue)
    · exact ⟨hid.chars, hcursor, hlocals⟩

/-- **The lines of a match side can be read**, once the chosen instructions are words. -/
theorem LaidOut.readable {bindings : List Binding} {previous : Option String} {nodes : List Node}
    {steps : List MatchStep} {elements : List Element}
    (h : LaidOut names bindings position previous taken numbers nodes steps elements after)
    (helements : ∀ node ∈ nodes, IsElement node) (hprevious : ∀ earlier ∈ previous, IsName earlier)
    {values : List String} (hvalues : ∀ value ∈ values, WordChars value) :
    ∀ step ∈ steps, step.Readable values := by
  induction h with
  | done => simp
  | element _ hcursor hcaptures hopcode _ ih =>
    rw [List.forall_mem_cons] at helements
    obtain ⟨name, rfl, hname⟩ := hcursor.eq_cursorLocal helements.1
    have hisName : IsName (cursorLocal name) := isName_cursorLocal hname
    obtain ⟨hlocals, hequalities⟩ :=
      hcaptures.readable (wordChars_captures helements.1) values
    have hmore := ih helements.2 fun earlier hearlier => by
      rwa [← Option.some.inj hearlier]
    rw [List.forall_mem_append, elementSteps, List.forall_mem_cons, List.forall_mem_append,
      List.forall_mem_map, List.forall_mem_cons]
    exact ⟨⟨⟨hisName, hprevious⟩, hlocals,
      readable_guardStep helements.1 hopcode hvalues hisName hlocals, hequalities⟩, hmore⟩

end Layout

end Peephole
