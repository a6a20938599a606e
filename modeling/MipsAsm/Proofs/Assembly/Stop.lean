import MipsAsm.Proofs.Assembly.Relocations

/-!
# Stopping at the first error

With the option to stop, either pass leaves its remaining lines unread once there is an error, and
the second pass does not begin if the first has found one.  Nothing else depends on the option.  So
a run that stops is a run that does not, broken off somewhere on its way, and since neither pass
ever takes back what it has found, what the broken-off run has found is where the full run begins.
How one fold breaks off on the way of another is `foldlM_stopping`, for any step.

The proof does not look at what either pass does with a line.  All it uses is that a pass is a fold,
that a step that stops leaves the state alone, and that a step that does not gives a later state.
From this there are two cases: the run that stops has gone the whole way, and is the other run, or
it is at a state that the other run went through.

The second case needs that the full run ends at all.  It is assumed to, since a run that stops early
may need less room in the tables than one that goes on.

* `Scan.Extends`, `Image.Extends` — a later state of a pass has all that an earlier one has.
* `assemble_without_stopping` — without errors, the option makes no difference.
* `stopping_truncates` — what that says of the two assemblies.
-/

set_option autoImplicit false

namespace MipsAsm

/-! ## The first pass

Two facts about a step: it adds at the end of what there is, and it does not look at the option
except to do nothing.  The first makes `Scan.Extends` an order along a run, and the second makes a
run with the option a part of the run without it. -/

namespace Scan

/-- A state of the first pass that has all that another one has. -/
structure Extends (s s' : Scan) : Prop where
  /-- The listing goes on. -/
  listing : s.listing.toList <+: s'.listing.toList
  /-- Labels are added at the end. -/
  labels : s.labels.entries.toList <+: s'.labels.entries.toList
  /-- Diagnostics are added at the end. -/
  diagnostics : s.diagnostics.toList <+: s'.diagnostics.toList

theorem Extends.refl (s : Scan) : s.Extends s :=
  ⟨List.prefix_rfl, List.prefix_rfl, List.prefix_rfl⟩

theorem Extends.trans {s t u : Scan} (h : s.Extends t) (h' : t.Extends u) : s.Extends u :=
  ⟨h.listing.trans h'.listing, h.labels.trans h'.labels, h.diagnostics.trans h'.diagnostics⟩

variable {s s' : Scan}

theorem Extends.hasErrors_eq_false (h : s.Extends s') (herrors : s'.hasErrors = false) :
    s.hasErrors = false := by
  rw [hasErrors, ← Array.any_toList, List.any_eq_false] at herrors ⊢
  exact fun d hd ↦ herrors d (h.diagnostics.subset hd)

theorem defineLabel_extends {limit : Int} {line : Line} (h : s.defineLabel limit line = some s') :
    s.Extends s' := by
  obtain ⟨-, rfl⟩ | ⟨name, labels, -, -, hinsert, rfl⟩ | ⟨name, diagnostic, log, -, -, -, rfl⟩ :=
    defineLabel_cases h
  · exact .refl _
  · obtain ⟨fault, -, hfault, -⟩ | ⟨-, -, -, hentries, -⟩ := SymbolTable.insert_cases hinsert
    · cases hfault
    · refine ⟨List.prefix_rfl, ?_, List.prefix_rfl⟩
      simp [hentries]
  · refine ⟨List.prefix_rfl, List.prefix_rfl, ?_⟩
    simp

theorem readInstruction_extends (s : Scan) (line : Line) : s.Extends (s.readInstruction line) := by
  obtain ⟨log, hread⟩ := readInstruction_eq s line
  rw [hread]
  refine ⟨?_, List.prefix_rfl, ?_⟩
  · simp
  · simp

/-- Reading a line takes nothing back. -/
theorem readLine_extends {o : Options} {cs : List Char} (h : s.readLine o cs = some s') :
    s.Extends s' := by
  rw [readLine] at h
  split at h
  · obtain rfl := Option.some.inj h
    exact .refl _
  · obtain ⟨t, hdefine, hread⟩ := Option.bind_eq_some_iff.mp h
    obtain rfl := Option.some.inj hread
    have hbody := t.readInstruction_extends (Line.read cs)
    exact (defineLabel_extends hdefine).trans ⟨hbody.listing, hbody.labels, hbody.diagnostics⟩

/-- **A first pass that stops** is on the way of the one that does not: at its end, or at an
error. -/
theorem ofLines_stopping {o : Options} {labels : SymbolTable} {lines : List (List Char)}
    (h : ofLines { o with stopOnFirstError := false } labels lines = some s') :
    ∃ s, ofLines { o with stopOnFirstError := true } labels lines = some s ∧ s.Extends s' ∧
      (s = s' ∨ s.hasErrors = true) := by
  obtain ⟨s, rest, hs, hrest, hend⟩ := foldlM_stopping
    (g := readLine { o with stopOnFirstError := true }) (fun s ↦ s.hasErrors = true)
    (fun s cs hs ↦ by simp [readLine, hs]) (fun s cs hs ↦ by simp [readLine, hs]) h
  refine ⟨s, hs, ?_, hend⟩
  exact foldlM_rel Extends.refl (fun _ _ _ ↦ Extends.trans) (fun _ _ _ ↦ readLine_extends) hrest

/-- A first pass without errors is the same whether it may stop or not. -/
theorem ofLines_without_stopping {o : Options} {labels : SymbolTable} {lines : List (List Char)}
    (h : ofLines o labels lines = some s) (herrors : s.hasErrors = false) :
    ofLines { o with stopOnFirstError := false } labels lines = some s :=
  foldlM_of_not_stopped (fun s ↦ (o.stopOnFirstError && s.hasErrors) = true)
    (fun s cs hs ↦ by rw [readLine, if_pos hs])
    (fun s cs hs ↦ by rw [readLine, if_neg hs]; rfl) h (by simp [herrors])

end Scan

/-! ## The second pass

The same for the second pass, whose words, diagnostics and relocations only grow. -/

namespace Image

/-- A state of the second pass that has all that another one has. -/
structure Extends (m m' : Image) : Prop where
  /-- Records of jumps are added at the end. -/
  relocations : m.relocations.entries.toList <+: m'.relocations.entries.toList
  /-- Words are added at the end. -/
  placements : m.placements.toList <+: m'.placements.toList
  /-- Diagnostics are added at the end. -/
  diagnostics : m.diagnostics.toList <+: m'.diagnostics.toList

theorem Extends.refl (m : Image) : m.Extends m :=
  ⟨List.prefix_rfl, List.prefix_rfl, List.prefix_rfl⟩

theorem Extends.trans {m n p : Image} (h : m.Extends n) (h' : n.Extends p) : m.Extends p :=
  ⟨h.relocations.trans h'.relocations, h.placements.trans h'.placements,
    h.diagnostics.trans h'.diagnostics⟩

variable {o : Options} {m m' : Image}

theorem place_extends {labels : SymbolTable} {number : Nat} {line : Line} {i : Instruction}
    (h : m.place o labels number line i = some m') : m.Extends m' := by
  rw [place] at h
  cases hencode : i.encode o.tableLimit (addressOf o.base m.read)
      { symbols := some labels, relocations := some m.relocations } with
  | mk tables outcome =>
    obtain ⟨r, hr, hentries⟩ := Instruction.encode_relocations hencode
    have hrecords : m.relocations.entries.toList <+: r.entries.toList := by simp [hentries]
    simp only [hencode, hr] at h
    cases outcome with
    | ok word =>
      obtain rfl := Option.some.inj h
      exact ⟨hrecords, by simp, List.prefix_rfl⟩
    | error fault =>
      cases fault with
      | rejected e =>
        obtain rfl := Option.some.inj h
        exact ⟨hrecords, List.prefix_rfl, by simp⟩
      | outOfMemory => cases h

/-- Reading a line of the listing takes nothing back. -/
theorem readLine_extends {source : Array (List Char)} {scan : Scan} {cs : List Char}
    (h : m.readLine o source scan cs = some m') : m.Extends m' := by
  rw [readLine] at h
  split at h
  · obtain rfl := Option.some.inj h
    exact .refl _
  · split at h
    · obtain rfl := Option.some.inj h
      exact ⟨List.prefix_rfl, List.prefix_rfl, List.prefix_rfl⟩
    · exact place_extends h

/-- **A second pass that stops** is on the way of the one that does not: at its end, or at an
error. -/
theorem ofListing_stopping {source : Array (List Char)} {scan : Scan} {relocations : SymbolTable}
    (h : ofListing { o with stopOnFirstError := false } source scan relocations = some m') :
    ∃ m, ofListing { o with stopOnFirstError := true } source scan relocations = some m ∧
      m.Extends m' ∧ (m = m' ∨ m.hasErrors = true) := by
  obtain ⟨m, rest, hm, hrest, hend⟩ := foldlM_stopping
    (g := readLine { o with stopOnFirstError := true } source scan) (fun m ↦ m.hasErrors = true)
    (fun m cs hm ↦ readLine_of_stopped ⟨rfl, hm⟩ cs)
    (fun m cs hm ↦ by simp [readLine, hm, place]) h
  refine ⟨m, hm, ?_, hend⟩
  exact foldlM_rel Extends.refl (fun _ _ _ ↦ Extends.trans) (fun _ _ _ ↦ readLine_extends) hrest

/-- A second pass without errors is the same whether it may stop or not. -/
theorem ofListing_without_stopping {source : Array (List Char)} {scan : Scan}
    {relocations : SymbolTable} (h : ofListing o source scan relocations = some m)
    (herrors : m.hasErrors = false) :
    ofListing { o with stopOnFirstError := false } source scan relocations = some m :=
  foldlM_of_not_stopped (fun m ↦ (o.stopOnFirstError && m.hasErrors) = true)
    (fun m cs hm ↦ by rw [readLine, if_pos hm])
    (fun m cs hm ↦ by rw [readLine, if_neg hm]; rfl) h (by simp [herrors])

/-- Any state has all that a pass begins with. -/
theorem start_extends (m : Image) : (start (.empty .repeatable)).Extends m :=
  ⟨List.nil_prefix, List.nil_prefix, List.nil_prefix⟩

end Image

/-! ## Both passes

Either pass may be the one that is broken off.  If it is the first, the second does not begin, and
then it has found nothing, which is a part of anything. -/

/-- **A run that stops** is broken off in the first pass, in which case the second does not begin,
or has the same first pass and is broken off in the second, or is not broken off. -/
theorem assemble_stopping {o : Options} {source : String} {full : Assembly}
    (h : assemble { o with stopOnFirstError := false } source = some full) :
    ∃ part, assemble { o with stopOnFirstError := true } source = some part ∧
      (part.scan.Extends full.scan ∧ part.scan.hasErrors = true ∧
          part.image = Image.start (.empty .repeatable) ∨
        part.scan = full.scan ∧ part.image.Extends full.image ∧
          (part.image = full.image ∨ part.image.hasErrors = true)) := by
  obtain ⟨labels, relocations, hlabels, hrelocations, hsource, hscan, hpass⟩ := assemble_cases h
  obtain rfl := SymbolTable.new_eq_ok hrelocations
  obtain ⟨-, hrun⟩ := hpass.resolve_left fun hstop ↦ Bool.false_ne_true hstop.1.1
  obtain ⟨s, hs, hextends, hend⟩ := Scan.ofLines_stopping hscan
  by_cases herrors : s.hasErrors = true
  · obtain ⟨part, hpart, rfl, himage⟩ := exists_assemble (o := { o with stopOnFirstError := true })
      hlabels hrelocations hs (.inl ⟨⟨rfl, herrors⟩, rfl⟩)
    exact ⟨part, hpart, .inl ⟨hextends, herrors, himage⟩⟩
  · obtain rfl := hend.resolve_right herrors
    obtain ⟨m, hm, hextends, hend⟩ := Image.ofListing_stopping hrun
    rw [hsource] at hm
    obtain ⟨part, hpart, hsame, rfl⟩ := exists_assemble (o := { o with stopOnFirstError := true })
      hlabels hrelocations hs (.inr ⟨fun hstop ↦ herrors hstop.2, hm⟩)
    exact ⟨part, hpart, .inr ⟨hsame, hextends, hend⟩⟩

/-- **Without errors the option to stop makes no difference.** -/
theorem assemble_without_stopping {o : Options} {source : String} {a : Assembly}
    (h : assemble o source = some a) (herrors : a.hasErrors = false) :
    assemble { o with stopOnFirstError := false } source = some a := by
  rw [a.hasErrors_eq, Bool.or_eq_false_iff] at herrors
  rw [assemble, assembleLines] at h ⊢
  simp only [Option.bind_eq_bind, Option.bind_eq_some_iff] at h ⊢
  obtain ⟨labels, hlabels, relocations, hrelocations, scan, hscan, hrest⟩ := h
  refine ⟨labels, hlabels, relocations, hrelocations, scan, ?_⟩
  split at hrest
  · rename_i hskip
    obtain rfl := Option.some.inj hrest
    refine ⟨Scan.ofLines_without_stopping hscan herrors.1, ?_⟩
    rw [herrors.1, Bool.and_false] at hskip
    rw [Bool.false_and, if_pos hskip]
    rfl
  · rename_i hrun
    obtain ⟨image, himage, hdone⟩ := Option.bind_eq_some_iff.mp hrest
    obtain rfl := Option.some.inj hdone
    refine ⟨Scan.ofLines_without_stopping hscan herrors.1, ?_⟩
    rw [herrors.1, Bool.and_false] at hrun
    rw [Bool.false_and, if_neg hrun, Image.ofListing_without_stopping himage herrors.2]
    rfl

namespace Assembly

variable {a b : Assembly}

theorem words_prefix (h : a.image.placements.toList <+: b.image.placements.toList) :
    a.words.toList <+: b.words.toList := by
  rw [words, words, Array.toList_map, Array.toList_map]
  exact h.map Placement.word

theorem hexText_prefix (h : a.words.toList <+: b.words.toList) :
    a.hexText.toList <+: b.hexText.toList := by
  obtain ⟨rest, hrest⟩ := h
  rw [hexText, hexText, ← hrest, List.map_append, String.join_append, String.toList_append]
  exact List.prefix_append _ _

theorem hasErrors_of_prefix (h : a.diagnostics.toList <+: b.diagnostics.toList)
    (herrors : a.hasErrors = true) : b.hasErrors = true := by
  rw [hasErrors, ← Array.any_toList, List.any_eq_true] at herrors ⊢
  obtain ⟨d, hd, herror⟩ := herrors
  exact ⟨d, h.subset hd, herror⟩

end Assembly

/-- **Stopping early only truncates.**  If a source is assembled without the option to stop, it is
with it.  The listing, the diagnostics, the labels, the records of jumps and the words then begin as
without it.  There is an error with the option if there is one without it, and if there is none,
nothing is missing. -/
theorem stopping_truncates (o : Options) (source : String) (full : Assembly)
    (h : assemble { o with stopOnFirstError := false } source = some full) :
    ∃ part, assemble { o with stopOnFirstError := true } source = some part ∧
      part.listing.toList <+: full.listing.toList ∧
      part.diagnostics.toList <+: full.diagnostics.toList ∧
      part.labels.entries.toList <+: full.labels.entries.toList ∧
      part.relocations.entries.toList <+: full.relocations.entries.toList ∧
      part.words.toList <+: full.words.toList ∧
      part.hexText.toList <+: full.hexText.toList ∧
      (part.hasErrors = true ↔ full.hasErrors = true) ∧
      (full.hasErrors = false →
        part.listing = full.listing ∧ part.diagnostics = full.diagnostics ∧
        part.labels.entries = full.labels.entries ∧
        part.relocations.entries = full.relocations.entries ∧
        part.words = full.words ∧ part.hexText = full.hexText) := by
  obtain ⟨part, hpart, hcases⟩ := assemble_stopping h
  have hscan : part.scan.Extends full.scan := by
    rcases hcases with ⟨hscan, -, -⟩ | ⟨hscan, -, -⟩
    · exact hscan
    · exact hscan ▸ .refl _
  have himage : part.image.Extends full.image := by
    rcases hcases with ⟨-, -, himage⟩ | ⟨-, himage, -⟩
    · exact himage ▸ full.image.start_extends
    · exact himage
  have hdiagnostics : part.diagnostics.toList <+: full.diagnostics.toList := by
    rw [Assembly.diagnostics, Assembly.diagnostics, Array.toList_append, Array.toList_append]
    rcases hcases with ⟨-, -, hstart⟩ | ⟨hsame, -, -⟩
    · rw [hstart]
      simpa [Image.start] using hscan.diagnostics.trans (List.prefix_append _ _)
    · rw [hsame]
      exact (List.prefix_append_right_inj _).mpr himage.diagnostics
  have hwords := Assembly.words_prefix himage.placements
  have hbroken : part.scan = full.scan ∧ part.image = full.image ∨ part.hasErrors = true := by
    rw [part.hasErrors_eq, Bool.or_eq_true]
    rcases hcases with ⟨-, herrors, -⟩ | ⟨hsame, -, hend⟩
    · exact .inr (.inl herrors)
    · exact hend.imp (fun hend ↦ ⟨hsame, hend⟩) .inr
  refine ⟨part, hpart, hscan.listing, hdiagnostics, hscan.labels, himage.relocations, hwords,
    Assembly.hexText_prefix hwords, ⟨Assembly.hasErrors_of_prefix hdiagnostics, fun hfull ↦ ?_⟩,
    fun hfull ↦ ?_⟩
  · rcases hbroken with ⟨hs, hm⟩ | herrors
    · rwa [Assembly.hasErrors_eq, hs, hm, ← Assembly.hasErrors_eq]
    · exact herrors
  · have hsame := hbroken.resolve_right fun herrors ↦ by
      rw [Assembly.hasErrors_of_prefix hdiagnostics herrors] at hfull
      cases hfull
    obtain ⟨hs, hm⟩ := hsame
    simp [Assembly.listing, Assembly.diagnostics, Assembly.labels, Assembly.relocations,
      Assembly.hexText, Assembly.words, hs, hm]

/-- A directive, which is no error, and a branch at which the second pass stops; and an instruction
at which the first pass stops, so that there is no second. -/
theorem stopping_truncates_in_either_pass :
    (∃ full part, assemble {} ".text\nx: jal x\nbeq $0, $0, y\njr $ra" = some full ∧
      assemble { stopOnFirstError := true } ".text\nx: jal x\nbeq $0, $0, y\njr $ra" =
        some part ∧
      full.words = #[0x0c000000, 0x03e00008] ∧ part.words = #[0x0c000000] ∧
      part.words.toList <+: full.words.toList ∧
      part.diagnostics.toList <+: full.diagnostics.toList ∧ part.hasErrors = true) ∧
    ∃ full part, assemble {} "y: j x\npush\nx: jr $ra" = some full ∧
      assemble { stopOnFirstError := true } "y: j x\npush\nx: jr $ra" = some part ∧
      full.labels.entries = #[⟨"y", 0⟩, ⟨"x", 4⟩] ∧ part.labels.entries = #[⟨"y", 0⟩] ∧
      part.labels.entries.toList <+: full.labels.entries.toList ∧
      part.words = #[] ∧ part.hasErrors = true := by
  have hrun : (assemble {} ".text\nx: jal x\nbeq $0, $0, y\njr $ra").map
      (fun a ↦ (a.words, a.hasErrors)) = some (#[0x0c000000, 0x03e00008], true) := by
    decide +kernel
  have hpart : (assemble { stopOnFirstError := true }
      ".text\nx: jal x\nbeq $0, $0, y\njr $ra").map Assembly.words = some #[0x0c000000] := by
    decide +kernel
  have hrun' : (assemble {} "y: j x\npush\nx: jr $ra").map
      (fun a ↦ (a.labels.entries, a.hasErrors)) = some (#[⟨"y", 0⟩, ⟨"x", 4⟩], true) := by
    decide +kernel
  have hpart' : (assemble { stopOnFirstError := true } "y: j x\npush\nx: jr $ra").map
      (fun a ↦ (a.labels.entries, a.words)) = some (#[⟨"y", 0⟩], #[]) := by
    decide +kernel
  refine ⟨?_, ?_⟩
  · obtain ⟨full, hfull, hvalues⟩ := Option.map_eq_some_iff.mp hrun
    obtain ⟨hwords, herrors⟩ := Prod.mk.inj hvalues
    obtain ⟨part, hstopped, -, hdiagnostics, -, -, hprefix, -, hiff, -⟩ :=
      stopping_truncates {} _ full hfull
    rw [hstopped] at hpart
    exact ⟨full, part, hfull, hstopped, hwords, Option.some.inj hpart, hprefix, hdiagnostics,
      hiff.mpr herrors⟩
  · obtain ⟨full, hfull, hvalues⟩ := Option.map_eq_some_iff.mp hrun'
    obtain ⟨hlabels, herrors⟩ := Prod.mk.inj hvalues
    obtain ⟨part, hstopped, -, -, hprefix, -, -, -, hiff, -⟩ := stopping_truncates {} _ full hfull
    rw [hstopped] at hpart'
    obtain ⟨hpartLabels, hpartWords⟩ := Prod.mk.inj (Option.some.inj hpart')
    exact ⟨full, part, hfull, hstopped, hlabels, hpartLabels, hprefix, hpartWords,
      hiff.mpr herrors⟩

end MipsAsm
