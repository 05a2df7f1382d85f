import StraightForth.Proofs.Reporting

/-!
# What compiling a file changes

A compilation writes the whole listing or nothing. Whatever can fail before the writing has been
tried by then, and nothing is read afterwards, so the listing may well replace the program that
it was compiled from. The main statement is about all that lies anywhere in the files, before
and after.

## Implementation notes

That a file is there also shows in the directories on its way. A path can only be written when
these exist already, and therefore they are what they were.
-/

namespace StraightForth

namespace Files

variable {files after : Files} {place found other above : Place}

section Ways

/-- Something lies at a place. -/
def HasEntry (files : Files) (place : Place) : Prop := files.entry? place ≠ none

/-- What lies on the way from a directory along one name is the directory or around it. -/
theorem isPrefix_of_next {name : String} (h : above <+: place.next name)
    (hne : above ≠ place.next name) : above <+: place := by
  unfold Place.next at h hne
  split at h
  · exact h
  · next hdot =>
      rw [if_neg hdot] at hne
      split at h
      · exact h.trans (List.dropLast_prefix place)
      · next hdots =>
          rw [if_neg hdots] at hne
          exact (List.prefix_concat_iff.1 h).resolve_left hne

theorem hasEntry_nil (files : Files) : files.HasEntry [] := by
  unfold HasEntry entry?
  split
  · exact Option.some_ne_none _
  · rw [if_pos (.inl rfl)]
    exact Option.some_ne_none _

theorem hasEntry_of_enter {name : String} (h : files.enter place name = .ok found) :
    files.HasEntry found := by
  obtain rfl := eq_next_of_enter h
  intro hnone
  rw [enter, hnone] at h
  cases h

/-- A walk passes places where something lies. -/
theorem hasEntry_of_walk {names : List String} (h : files.walk place names = .ok found)
    (hplace : ∀ passed, passed <+: place → files.HasEntry passed)
    (habove : above <+: found) (hne : above ≠ found) : files.HasEntry above := by
  fun_induction walk files place names with
  | case1 place =>
      cases h
      exact hplace above habove
  | case2 place name =>
      cases h
      exact hplace above (isPrefix_of_next habove hne)
  | case3 place name rest _ inner entered ih =>
      refine ih h fun passed hpassed => ?_
      by_cases hsame : passed = inner
      · rw [hsame]
        exact hasEntry_of_enter entered
      · obtain rfl := eq_next_of_enter entered
        exact hplace passed (isPrefix_of_next hpassed hsame)
  | case4 => cases h

/-- So something lies everywhere on the way to the place of a path. -/
theorem hasEntry_of_locate {path : String} (h : files.locate path = .ok found)
    (habove : above <+: found) (hne : above ≠ found) : files.HasEntry above := by
  unfold locate at h
  split at h
  · cases h
  · refine hasEntry_of_walk h (fun passed hpassed => ?_) habove hne
    rw [List.prefix_nil.1 hpassed]
    exact files.hasEntry_nil

/-- A walk that succeeds does so with more directories. -/
theorem walk_of_directories {names : List String}
    (hdirectories : ∀ place, files.entry? place = some .directory →
      after.entry? place = some .directory)
    (h : files.walk place names = .ok found) : after.walk place names = .ok found := by
  fun_induction walk files place names with
  | case1 => exact h
  | case2 => exact h
  | case3 place name rest hrest inner entered ih =>
      have hentered : after.enter place name = .ok inner := by
        unfold enter at entered ⊢
        split at entered
        · next hdirectory => rw [hdirectories _ hdirectory, entered]
        · cases entered
        · cases entered
      rw [walk, hentered]
      · exact ih h
      · exact hrest
  | case4 => cases h

end Ways

section Entries

theorem lookup_filter_ne {entries : List (Place × Entry)} (h : other ≠ place) :
    (entries.filter fun old => old.1 ≠ place).lookup other = entries.lookup other := by
  induction entries with
  | nil => rfl
  | cons old rest ih =>
      by_cases hplace : old.1 = place
      · have hother : (other == old.1) = false := beq_false_of_ne (hplace ▸ h)
        rw [List.filter_cons_of_neg (by simpa using hplace), ih, List.lookup_cons, hother]
      · rw [List.filter_cons_of_pos (by simpa using hplace), List.lookup_cons, List.lookup_cons, ih]

/-- Where nothing is entered, there is a directory if something lies around or below. -/
theorem directory_of_lookup_eq_none (h : files.entries.lookup place = none) :
    files.entry? place =
      if place.isAround = true ∨ ∃ old ∈ files.entries, place <+: old.1 then some .directory
      else none := by
  unfold entry?
  simp only [h, List.any_eq_true, List.isPrefixOf_iff_prefix]

/-- A new entry lies below the places on its way only. -/
theorem exists_mem_put_iff {entry : Entry} (h : ¬ other <+: place) :
    (∃ old ∈ (files.put place entry).entries, other <+: old.1) ↔
      ∃ old ∈ files.entries, other <+: old.1 := by
  constructor
  · rintro ⟨old, hold, hprefix⟩
    rcases List.mem_cons.1 hold with rfl | hkept
    · exact (h hprefix).elim
    · exact ⟨old, List.mem_of_mem_filter hkept, hprefix⟩
  · rintro ⟨old, hold, hprefix⟩
    have hne : old.1 ≠ place := by
      rintro rfl
      exact h hprefix
    exact ⟨old, List.mem_cons_of_mem _ (List.mem_filter.2 ⟨hold, decide_eq_true hne⟩), hprefix⟩

/-- An entry shows in its own place only, if something lies everywhere on the way to it. -/
theorem entry?_put (entry : Entry)
    (hway : ∀ above, above <+: place → above ≠ place → files.HasEntry above) (other : Place) :
    Files.entry? (files.put place entry) other =
      if other = place then some entry else files.entry? other := by
  by_cases hother : other = place
  · subst hother
    unfold entry?
    rw [if_pos rfl, put, List.lookup_cons, beq_self_eq_true]
  · rw [if_neg hother]
    have hlookup : (files.put place entry).entries.lookup other = files.entries.lookup other := by
      rw [put, List.lookup_cons, beq_false_of_ne hother]
      exact lookup_filter_ne hother
    cases hfound : files.entries.lookup other with
    | some old =>
        unfold entry?
        rw [hlookup, hfound]
    | none =>
        have hnone := hlookup.trans hfound
        by_cases hprefix : other <+: place
        · -- The place shows through the new entry, and something was there before.
          have hbefore := hway other hprefix hother
          rw [HasEntry, directory_of_lookup_eq_none hfound] at hbefore
          rw [directory_of_lookup_eq_none hnone, directory_of_lookup_eq_none hfound, if_pos, if_pos]
          · exact of_not_not fun hnot => hbefore (if_neg hnot)
          · exact .inr ⟨(place, entry), List.mem_cons_self, hprefix⟩
        · rw [directory_of_lookup_eq_none hnone, directory_of_lookup_eq_none hfound]
          exact if_congr (or_congr_right (exists_mem_put_iff hprefix)) rfl rfl

end Entries

section Writes

variable {path content : String}

/-- Writing puts the content in the place of the path, which is no directory. -/
theorem of_write (h : files.write path content = .ok after) :
    files.locate path = .ok (Path.place path) ∧ Path.endsInSlash path = false ∧
      files.entry? (Path.place path) ≠ some .directory ∧
      after = files.put (Path.place path) (.file content.toUTF8) := by
  cases hlocate : files.locate path with
  | error failure =>
      simp only [write, hlocate, bind, Except.bind] at h
      cases h
  | ok place =>
      obtain rfl := eq_place_of_locate hlocate
      simp only [write, hlocate, bind, Except.bind] at h
      split at h
      · cases h
      · next hfile =>
          obtain ⟨hslash, hdirectory⟩ := not_or.1 hfile
          cases h
          exact ⟨rfl, Bool.not_eq_true _ ▸ hslash, hdirectory, rfl⟩

/-- After a writing the place of the path has the content, and any other what it had. -/
theorem entry?_write (h : files.write path content = .ok after) (other : Place) :
    after.entry? other =
      if other = Path.place path then some (.file content.toUTF8) else files.entry? other := by
  obtain ⟨hlocate, _, _, rfl⟩ := of_write h
  exact entry?_put _ (fun _ => hasEntry_of_locate hlocate) other

/-- What has been written is read. -/
theorem read_write (h : files.write path content = .ok after) :
    after.read path = .ok content.toUTF8 := by
  obtain ⟨hlocate, hslash, hdirectory, _⟩ := of_write h
  have hentry := entry?_write h
  have hkept : ∀ place, files.entry? place = some .directory →
      after.entry? place = some .directory := by
    intro place hplace
    have hne : place ≠ Path.place path := by
      rintro rfl
      exact hdirectory hplace
    rw [hentry, if_neg hne, hplace]
  have hfound : after.locate path = .ok (Path.place path) := by
    unfold locate at hlocate ⊢
    split
    · next hempty =>
        rw [if_pos hempty] at hlocate
        cases hlocate
    · next hempty =>
        rw [if_neg hempty] at hlocate
        exact walk_of_directories hkept hlocate
  simp only [read, hfound, bind, Except.bind, hentry, if_true, hslash]
  rfl

end Writes

end Files

namespace Invocation

/-- The text of a program file is its content, decoded. -/
theorem sourceOf_eq_ok_iff {path source : String} {found : Except AccessFailure ByteArray} :
    sourceOf path found = .ok source ↔ found = .ok source.toUTF8 := by
  constructor
  · intro h
    cases found with
    | error failure => cases h
    | ok content =>
        simp only [sourceOf, String.fromUTF8?] at h
        split at h
        · next decoded hdecoded =>
            split at hdecoded
            · cases hdecoded
              cases h
              rfl
            · cases hdecoded
        · cases h
  · rintro rfl
    simp only [sourceOf, fromUTF8?_toUTF8]

variable (invocation : Invocation) {files : Files} {output : String}

/-- A compilation of a file writes all or nothing, whatever the files are and wherever the output
goes. If the file can be read and its text compiled, the output file has the whole listing
afterwards, and the reports of the listing are shown, one on each line. If not, one diagnostic is
shown and no file has changed. In both cases nothing but the output file is different from before
and nothing is printed on the standard output. -/
theorem emit_all_or_nothing (writable : ∀ text, ∃ after, files.write output text = .ok after) :
    let result := (({ invocation with output := some output }).perform Files.host).run files
    let response := result.1
    let after := result.2
    (∃ source listing, files.read invocation.file = .ok source.toUTF8 ∧
        Assembly.compile invocation.recover source = .ok listing ∧
        response = ⟨⟨"", Text.unlines (listing.errors.map fun error => "?" ++ error.text)⟩, 0⟩ ∧
        after.read output = .ok listing.render.toUTF8 ∧
        ∀ place, after.entry? place =
          if place = Path.place output then some (.file listing.render.toUTF8)
          else files.entry? place) ∨
      ∃ fatal : Diagnostic,
        ((∀ source : String, files.read invocation.file ≠ .ok source.toUTF8) ∨
          ∃ source, files.read invocation.file = .ok source.toUTF8 ∧
            Assembly.compile invocation.recover source = .error fatal) ∧
        response = ⟨⟨"", "?" ++ fatal.text ++ "\n"⟩, 1⟩ ∧ after = files := by
  intro result response after
  have hresult : result = _ := run_emit { invocation with output := some output } rfl files
  have hfinish (fatal : Diagnostic) :
      Response.finish ⟨"", ""⟩ (some fatal) = ⟨⟨"", "?" ++ fatal.text ++ "\n"⟩, 1⟩ := by
    rw [Response.finish_eq, Option.toList_some, complaints_singleton, String.empty_append]
    rfl
  cases hsource : sourceOf invocation.file (files.read invocation.file) with
  | error fatal =>
      simp only [hsource] at hresult
      refine .inr ⟨fatal, .inl fun source hread => ?_, ?_, congrArg Prod.snd hresult⟩
      · rw [sourceOf_eq_ok_iff.2 hread] at hsource
        cases hsource
      · rw [show response = _ from congrArg Prod.fst hresult, hfinish]
  | ok source =>
      have hread := sourceOf_eq_ok_iff.1 hsource
      simp only [hsource] at hresult
      cases hcompile : Assembly.compile invocation.recover source with
      | error fatal =>
          simp only [hcompile] at hresult
          refine .inr ⟨fatal, .inr ⟨source, hread, hcompile⟩, ?_, congrArg Prod.snd hresult⟩
          rw [show response = _ from congrArg Prod.fst hresult, hfinish]
      | ok listing =>
          obtain ⟨written, hwritten⟩ := writable listing.render
          simp only [hcompile, hwritten] at hresult
          have hafter : after = written := congrArg Prod.snd hresult
          refine .inl ⟨source, listing, hread, hcompile, congrArg Prod.fst hresult, ?_, ?_⟩
          · rw [hafter]
            exact Files.read_write hwritten
          · rw [hafter]
            exact Files.entry?_write hwritten

/-- A fatal fault leaves no listing behind, and the fault before it is not shown. -/
example :
    let files := program "+ 1 x +"
    let result :=
      (({ file := "p.fs", output := some "p.s" } : Invocation).perform Files.host).run files
    result.1 = ⟨⟨"", "?TYPE MISMATCH IN 1 (6..7); expected integer, found x\n"⟩, 1⟩ ∧
      result.2 = files := by
  decide +kernel

/-- The program is read before its file is overwritten, and its fault does not keep it from being
compiled. -/
theorem emit_replaces_program :
    let files := program "1 +"
    let result :=
      (({ file := "p.fs", output := some "p.fs" } : Invocation).perform Files.host).run files
    (∀ text, ∃ after, files.write "p.fs" text = .ok after) ∧
      result.1 = ⟨⟨"", "?STACK UNDERFLOW IN 1 (2..3)\n"⟩, 0⟩ ∧
      ∃ listing, Assembly.compile false "1 +" = .ok listing ∧
        result.2.read "p.fs" = .ok listing.render.toUTF8 := by
  intro files result
  have hnames : Path.names "p.fs" = ["p.fs"] := by decide +kernel
  have hplace : files.locate "p.fs" = .ok ["p.fs"] := by
    simp only [Files.locate]
    rw [hnames]
    rfl
  have writable : ∀ text, ∃ after, files.write "p.fs" text = .ok after :=
    fun text => ⟨_, Files.write_of_locate hplace (by decide +kernel) (by decide +kernel)⟩
  have hsource : sourceOf "p.fs" (files.read "p.fs") = .ok "1 +" := by decide +kernel
  have hsame {source : String} (hread : files.read "p.fs" = .ok source.toUTF8) : "1 +" = source :=
    Except.ok.inj (hsource.symm.trans (sourceOf_eq_ok_iff.2 hread))
  have hreports : (Assembly.compile false "1 +").toOption.map Assembly.Listing.errors =
      some [⟨.stackUnderflow, some 1, ⟨2, 3⟩, ""⟩] := by decide +kernel
  refine ⟨writable, ?_⟩
  rcases emit_all_or_nothing { file := "p.fs" } writable with
    ⟨source, listing, hread, hcompile, hresponse, hwritten, _⟩ | ⟨fatal, hfails, _⟩
  · obtain rfl := hsame hread
    refine ⟨hresponse.trans ?_, listing, hcompile, hwritten⟩
    rw [show Assembly.compile false "1 +" = _ from hcompile] at hreports
    rw [Option.some.inj hreports]
    decide +kernel
  · exfalso
    rcases hfails with hunread | ⟨source, hread, herror⟩
    · exact hunread _ (sourceOf_eq_ok_iff.1 hsource)
    · obtain rfl := hsame hread
      rw [show Assembly.compile false "1 +" = _ from herror] at hreports
      cases hreports

end Invocation

end StraightForth
