import MipsAsm.Proofs.Assembly.Room

/-!
# How much room a source needs

There is no assembly if a table runs out of room.  A table that is full is given twice the room, so
it never asks for more than twice the room of its entries.  A line of the source adds at most one
label, and it stands for at most four instructions, of which each adds at most one relocation.  So
there is an assembly of every source whose lines are few enough, whatever is wrong with it.

Whether there is an assembly does not depend on whether the source is correct.  It is a question of
room, and it is answered by a bound that can be computed from the number of lines.  The bound is
generous: most lines have no label, and few instructions are jumps.  What matters is that it is a
condition on the source and the options alone, so that other results can assume it and be about all
sources.

* `SymbolTable.Within` — a table with at most so many entries, which can grow.
* `Scan.exists_readLine_within`, `Image.exists_readLine_within` — reading a line of the source, or
  of the listing, adds at most one entry.
* `exists_assemble_of_room` — a source with enough room for its lines is assembled.
-/

set_option autoImplicit false

namespace MipsAsm

/-! ## Tables

A table grows when it is full, to twice its room, so it asks for twice the number of its entries.  A
table that was released has no room that could be doubled and never grows again, which is the other
half of `SymbolTable.Within`. -/

namespace SymbolTable

/-- The table has at most `n` entries and can grow. -/
structure Within (n : Nat) (t : SymbolTable) : Prop where
  /-- The table was not released. -/
  capacity : t.capacity ≠ 0
  /-- It has at most `n` entries. -/
  size : t.size ≤ n

variable {n : Nat} {t : SymbolTable} {limit : Int}

theorem within_new {mode : Mode} (h : new limit mode = .ok t) : t.Within 0 := by
  obtain rfl := new_eq_ok h
  exact ⟨Nat.succ_ne_zero _, Nat.le_refl 0⟩

theorem Within.mono {m : Nat} (h : t.Within n) (hle : n ≤ m) : t.Within m :=
  ⟨h.capacity, Nat.le_trans h.size hle⟩

/-- An insertion adds at most one entry. -/
theorem Within.insert (h : t.Within n) (limit : Int) (name : String) (address : UInt32) :
    (t.insert limit name address).1.Within (n + 1) := by
  rw [SymbolTable.insert]
  split
  · exact h.mono (Nat.le_succ n)
  · refine ⟨?_, ?_⟩
    · show t.makeRoom.capacity ≠ 0
      rw [makeRoom]
      split
      · exact Nat.mul_ne_zero (by decide) h.capacity
      · exact h.capacity
    · show (t.makeRoom.entries.push _).size ≤ n + 1
      rw [Array.size_push, makeRoom]
      split <;> exact Nat.succ_le_succ h.size

/-- An insertion finds room if twice the number of entries is allowed. -/
theorem Within.insert_ne_outOfMemory (h : t.Within n) (hroom : 2 * (n : Int) ≤ limit)
    (name : String) (address : UInt32) :
    (t.insert limit name address).2 ≠ .error .outOfMemory := by
  have hgrow : ¬(t.size = t.capacity ∧ ¬t.canGrow limit = true) := by
    rintro ⟨hfull, hgrow⟩
    have hsize := h.size
    refine hgrow ?_
    rw [canGrow, Bool.and_eq_true, bne_iff_ne, decide_eq_true_eq]
    exact ⟨h.capacity, by omega⟩
  rw [insert_snd, insertFault?, if_neg hgrow]
  split
  · rename_i fault hfault
    rintro ⟨⟩
    split at hfault
    · cases hfault
    · split at hfault <;> cases hfault
  · rintro ⟨⟩

end SymbolTable

/-- An instruction is encoded with the room that there is if each label can be inserted. -/
theorem Instruction.encode_ne_outOfMemory {limit : Int} {i : Instruction} {address : UInt32}
    {symbols : Option SymbolTable} {r : SymbolTable}
    (hr : ∀ label, (r.insert limit label address).2 ≠ .error .outOfMemory) :
    (i.encode limit address { symbols, relocations := some r }).2 ≠ .error .outOfMemory := by
  intro hmemory
  cases hcheck : i.check { symbols, relocations := some r } with
  | error e =>
    rw [encode_of_check_error hcheck] at hmemory
    cases hmemory
  | ok m =>
    cases hvalues : i.fieldValues m symbols address with
    | error e =>
      rw [encode_of_fieldValues_error hcheck hvalues] at hmemory
      cases hmemory
    | ok values =>
      rw [encode_of_fieldValues hcheck hvalues] at hmemory
      obtain ⟨label, rest, hjump, hargs⟩ | hnothing := record_cases limit i address m.family
      · rw [hjump, record_jump hargs] at hmemory
        cases hinsert : (r.insert limit label address).2 with
        | ok done =>
          rw [hinsert] at hmemory
          cases hmemory
        | error fault =>
          cases fault with
          | rejected e =>
            rw [hinsert] at hmemory
            cases hmemory
          | outOfMemory => exact hr label hinsert
      · rw [hnothing] at hmemory
        cases hmemory

/-! ## The two passes

A step of either pass inserts at most one name, so it takes a table with at most `n` entries to one
with at most `n + 1`, and finds room if twice `n` is allowed.  The number is counted along with the
lines that were read. -/

variable {o : Options} {n : Nat}

theorem Scan.exists_readLine_within {s : Scan} (h : s.labels.Within n)
    (hroom : 2 * (n : Int) ≤ o.tableLimit) (cs : List Char) :
    ∃ s', s.readLine o cs = some s' ∧ s'.labels.Within (n + 1) := by
  have hdefine : ∃ t, s.defineLabel o.tableLimit (Line.read cs) = some t ∧
      t.labels.Within (n + 1) := by
    rw [defineLabel]
    split
    · exact ⟨s, rfl, h.mono (Nat.le_succ n)⟩
    · rename_i name hname
      have hwithin := h.insert o.tableLimit name.text s.address
      have hfound := h.insert_ne_outOfMemory hroom name.text s.address
      split
      · split
        · rename_i labels hinsert
          rw [hinsert] at hwithin
          exact ⟨_, rfl, hwithin⟩
        · rename_i labels e hinsert
          rw [hinsert] at hwithin
          exact ⟨_, rfl, hwithin⟩
        · rename_i labels hinsert
          exact absurd (congrArg Prod.snd hinsert) hfound
      · exact ⟨_, rfl, h.mono (Nat.le_succ n)⟩
  obtain ⟨t, ht, hwithin⟩ := hdefine
  rw [readLine]
  split
  · exact ⟨s, rfl, h.mono (Nat.le_succ n)⟩
  · obtain ⟨log, hinstruction⟩ := readInstruction_eq t (Line.read cs)
    simp only [ht, Option.bind_eq_bind, Option.bind_some, hinstruction]
    exact ⟨_, rfl, hwithin⟩

namespace Image

/-- Encoding an instruction adds at most one relocation, and finds room for it. -/
theorem exists_place_within {m : Image} (h : m.relocations.Within n)
    (hroom : 2 * (n : Int) ≤ o.tableLimit) (labels : SymbolTable) (number : Nat) (line : Line)
    (i : Instruction) :
    ∃ m', m.place o labels number line i = some m' ∧ m'.relocations.Within (n + 1) := by
  have hfound : (i.encode o.tableLimit (addressOf o.base m.read)
      { symbols := some labels, relocations := some m.relocations }).2 ≠ .error .outOfMemory :=
    Instruction.encode_ne_outOfMemory fun label ↦ h.insert_ne_outOfMemory hroom label _
  have hcases := i.encode_cases o.tableLimit (addressOf o.base m.read)
    { symbols := some labels, relocations := some m.relocations }
  obtain ⟨hsame, -⟩ | ⟨label, r, r', w, -, -, hr, hinsert, hencode⟩ := hcases
  · cases hencode : i.encode o.tableLimit (addressOf o.base m.read)
        { symbols := some labels, relocations := some m.relocations } with
    | mk tables outcome =>
      rw [hencode] at hsame hfound
      obtain rfl : tables = _ := hsame
      simp only [place, hencode]
      cases outcome with
      | ok word => exact ⟨_, rfl, h.mono (Nat.le_succ n)⟩
      | error fault =>
        cases fault with
        | rejected e => exact ⟨_, rfl, h.mono (Nat.le_succ n)⟩
        | outOfMemory => exact absurd rfl hfound
  · obtain rfl := Option.some.inj hr
    have hwithin := h.insert o.tableLimit label (addressOf o.base m.read)
    rw [hinsert] at hwithin
    simp only [place, hencode]
    exact ⟨_, rfl, hwithin⟩

theorem exists_readLine_within {m : Image} (h : m.relocations.Within n)
    (hroom : 2 * (n : Int) ≤ o.tableLimit) (source : Array (List Char)) (scan : Scan)
    (cs : List Char) :
    ∃ m', m.readLine o source scan cs = some m' ∧ m'.relocations.Within (n + 1) := by
  rw [readLine]
  split
  · exact ⟨m, rfl, h.mono (Nat.le_succ n)⟩
  · split
    · exact ⟨_, rfl, h.mono (Nat.le_succ n)⟩
    · exact exists_place_within h hroom ..

end Image

/-! ## Sources

A line stands for at most four instructions.  That bounds the lines of the listing, and with them
the relocations, in terms of the lines of the source, which is what someone who calls the assembler
knows. -/

/-- An instruction stands for one to four instructions. -/
theorem Instruction.length_of_expand {i : Instruction} {is : List Instruction}
    (h : i.expand = .ok is) : 0 < is.length ∧ is.length ≤ 4 := by
  rw [expand] at h
  split at h
  · cases h
  · split at h
    · obtain rfl := Except.ok.inj h
      exact ⟨Nat.one_pos, Nat.le_add_left 1 3⟩
    · rw [Pseudo.expand.eq_def] at h
      split at h
      case h_1 =>
        split at h
        · cases h
        · obtain rfl := Except.ok.inj h
          rw [Pseudo.loadConstant]
          split <;> exact ⟨Nat.succ_pos _, Nat.le_of_ble_eq_true rfl⟩
      case h_6 => cases h
      all_goals
        obtain rfl := Except.ok.inj h
        exact ⟨Nat.succ_pos _, Nat.le_of_ble_eq_true rfl⟩

/-- A line stands for at most four instructions. -/
theorem Line.length_expansion_le (l : Line) : l.expansion.length ≤ 4 := by
  rw [expansion]
  cases l.instruction? with
  | none => exact Nat.zero_le 4
  | some i =>
    cases hexpand : i.expand with
    | error e => simp [hexpand]
    | ok is => simpa [hexpand] using (Instruction.length_of_expand hexpand).2

theorem length_expandLines_le (lines : List (List Char)) :
    (expandLines lines).length ≤ 4 * lines.length := by
  induction lines using List.reverseRecOn with
  | nil => exact Nat.le_refl 0
  | append_singleton lines cs ih =>
    have hlast := (Line.read cs).length_expansion_le
    rw [expandLines_concat, List.length_append, List.length_map, List.length_append,
      List.length_singleton]
    omega

/-- A table of so many entries, and a new one, are allowed: eight entries for each line. -/
def Options.HasRoomFor (o : Options) (source : String) : Prop :=
  5 ≤ o.tableLimit ∧ 8 * ((Text.splitLines source.toList).length : Int) ≤ o.tableLimit

/-- **A source with enough room for its lines is assembled**, whatever is wrong with it. -/
theorem exists_assemble_of_room {source : String} (h : o.HasRoomFor source) :
    ∃ a, assemble o source = some a := by
  obtain ⟨hnew, hroom⟩ := h
  have hempty : ∀ mode, SymbolTable.new o.tableLimit mode = .ok (.empty mode) := fun mode ↦
    if_neg (Int.not_lt.mpr hnew)
  generalize hlines : Text.splitLines source.toList = lines at hroom
  obtain ⟨s, hs⟩ : ∃ s, Scan.ofLines o (.empty .unique) lines = some s := by
    refine exists_foldlM_within (P := fun n (s : Scan) ↦ s.labels.Within n) (N := lines.length)
      (fun n hn s cs hs ↦ Scan.exists_readLine_within hs (by omega) cs) (n := 0) (by omega)
      (SymbolTable.within_new (hempty .unique))
  obtain ⟨-, hscan, -⟩ := Scan.ofLines_describes (hempty .unique) hs
  have hlength : (Image.listingLines s.listing).length ≤ 4 * lines.length := by
    have hread := length_expandLines_le (lines.take s.lines)
    rw [hscan.listingLines fun l hl ↦ lineFeed_not_mem_of_take (hlines ▸ hl), List.length_map]
    refine Nat.le_trans hread (Nat.mul_le_mul_left 4 ?_)
    exact List.length_take_le' _ _
  obtain ⟨m, hm⟩ : ∃ m, Image.ofListing o lines.toArray s (.empty .repeatable) = some m := by
    refine exists_foldlM_within (P := fun n (m : Image) ↦ m.relocations.Within n)
      (N := 4 * lines.length)
      (fun n hn m cs hm ↦ Image.exists_readLine_within hm (by omega) lines.toArray s cs) (n := 0)
      (by omega) (SymbolTable.within_new (hempty .repeatable))
  rw [← hlines] at hs hm
  by_cases hstop : o.stopOnFirstError = true ∧ s.hasErrors = true
  · obtain ⟨a, ha, -⟩ := exists_assemble (hempty .unique) (hempty .repeatable) hs
      (.inl ⟨hstop, rfl⟩)
    exact ⟨a, ha⟩
  · obtain ⟨a, ha, -⟩ := exists_assemble (hempty .unique) (hempty .repeatable) hs
      (.inr ⟨hstop, hm⟩)
    exact ⟨a, ha⟩

end MipsAsm
