import CoolTree.Command.Batch
import CoolTree.Proofs.Writing
import Mathlib.Algebra.GroupWithZero.Nat
import Mathlib.Algebra.Order.BigOperators.Group.List
import Mathlib.Algebra.Order.Group.Nat

/-!
# Batches that stop

A batch writes file by file, first the tree or the tokens and then the problems of a file. It stops
at the first file that cannot be read and at the first byte that does not fit. What the two sinks
hold then is told by the files in front of the one at which it stopped, and by how far it came with
that one.
-/

namespace CoolTree.Batch

def problems (file : String × String) : List SyntaxError :=
  (Tree.parse Language.cool {} file.2).errors

/-- The lines about a source, by its name. -/
def lines (o : Options) (file : String × String) (c : Channel) : List String :=
  if o.quiet then []
  else
    match c with
    | .output =>
      if o.tokens then
        (Token.ofSource file.2.toList).map fun t ↦
          t.start.point.display ++ " - " ++ t.stop.point.display ++ "  " ++ t.kind.description ++
            "  " ++ Text.quoteString (String.ofList t.text) ++ "\n"
      else [(Tree.parse Language.cool {} file.2).root.sexp ++ "\n"]
    | .diagnostics => (problems file).map fun e ↦ file.1 ++ ":" ++ e.display ++ "\n"

def bytesOf (o : Options) (file : String × String) (c : Channel) : List UInt8 :=
  (lines o file c).flatMap Text.encodeUtf8

/-- The bytes about files, one file behind the other. -/
def sent (o : Options) (files : List (String × String)) (c : Channel) : List UInt8 :=
  files.flatMap (bytesOf o · c)

/-- A file that can be read, with its source. -/
def readable (file : String × String) : String × Except Failure String :=
  (file.1, .ok file.2)

def summaryOf (files : List (String × String)) : Summary where
  files := files.length
  filesWithErrors := files.countP fun file ↦ !(problems file).isEmpty
  errors := (files.map fun file ↦ (problems file).length).sum

def full : Failure :=
  ⟨.inputOutput Sink.fullReason, none⟩

/-- What becomes of the report on a file. No problem is written unless the tree or the tokens
fitted. -/
inductive Reported (o : Options) (file : String × String) (before : Sinks) :
    Sinks → Except Failure Nat → Prop
  | whole {after : Sinks} (takes : ∀ c, (before.sink c).Takes (bytesOf o file c) (after.sink c)) :
      Reported o file before after (.ok (problems file).length)
  | cutOutput {output : Sink} (cut : before.output.Writes (bytesOf o file .output) output false) :
      Reported o file before ⟨output, before.diagnostics⟩ (.error full)
  | cutDiagnostics {output diagnostics : Sink}
      (takes : before.output.Takes (bytesOf o file .output) output)
      (cut : before.diagnostics.Writes (bytesOf o file .diagnostics) diagnostics false) :
      Reported o file before ⟨output, diagnostics⟩ (.error full)

theorem report_eq (o : Options) (name source : String) :
    report o name source (Tree.parse Language.cool {} source) =
      (lines o (name, source) .output).map (.output, ·) ++
        (lines o (name, source) .diagnostics).map (.diagnostics, ·) := by
  cases hquiet : o.quiet with
  | true => simp [report, lines, hquiet]
  | false =>
      cases htokens : o.tokens <;>
        simp [report, lines, problems, tokenLine, hquiet, htokens, Function.comp_def]

theorem reported_process (o : Options) (sinks : Sinks) (name source : String) :
    Reported o (name, source) sinks (process o sinks name source).1
      (process o sinks name source).2 := by
  let file := (name, source)
  obtain ⟨output, fits, hwrite, houtput⟩ := sinks.write_lines .output (lines o file .output)
  obtain ⟨diagnostics, fits', hwrite', hdiagnostics⟩ :=
    (sinks.set .output output).write_lines .diagnostics (lines o file .diagnostics)
  have hreport := sinks.write_append ((lines o file .output).map (.output, ·))
    ((lines o file .diagnostics).map (.diagnostics, ·))
  rw [← report_eq, hwrite, hwrite'] at hreport
  cases fits with
  | false =>
      rw [process, hreport]
      exact .cutOutput houtput
  | true =>
      cases fits' with
      | false =>
          rw [process, hreport]
          exact .cutDiagnostics houtput.takes hdiagnostics
      | true =>
          rw [process, hreport]
          apply Reported.whole
          intro c
          cases c with
          | output => exact houtput.takes
          | diagnostics => exact hdiagnostics.takes

/-- How a batch can end, and what two sinks hold then that had the given rooms. -/
inductive Ends (o : Options) (rooms : Channel → Option Nat) :
    List (String × Except Failure String) → Sinks → Except Failure Summary → Prop
  /-- All files have been read, and what is said about them fitted. -/
  | whole {done : List (String × String)} {sinks : Sinks}
      (takes : ∀ c, (Sink.ofRoom (rooms c)).Takes (sent o done c) (sinks.sink c)) :
      Ends o rooms (done.map readable) sinks (.ok (summaryOf done))
  /-- Everything about the files in front of one that cannot be read has been written. -/
  | unreadable {done : List (String × String)} {name : String} {failure : Failure}
      {behind : List (String × Except Failure String)} {sinks : Sinks}
      (takes : ∀ c, (Sink.ofRoom (rooms c)).Takes (sent o done c) (sinks.sink c)) :
      Ends o rooms (done.map readable ++ (name, .error failure) :: behind) sinks (.error failure)
  /-- The tree or the tokens of a file have been cut off, and none of its problems is there. -/
  | cutOutput {done : List (String × String)} {file : String × String}
      {behind : List (String × Except Failure String)} {sinks : Sinks} {part rest : List UInt8}
      (split : bytesOf o file .output = part ++ rest) (rest_ne : rest ≠ [])
      (output : (Sink.ofRoom (rooms .output)).Takes (sent o done .output ++ part) sinks.output)
      (full : sinks.output.room = some 0)
      (diagnostics : (Sink.ofRoom (rooms .diagnostics)).Takes (sent o done .diagnostics)
        sinks.diagnostics) :
      Ends o rooms (done.map readable ++ readable file :: behind) sinks (.error Batch.full)
  /-- The problems of a file have been cut off behind the whole of its tree or its tokens. -/
  | cutDiagnostics {done : List (String × String)} {file : String × String}
      {behind : List (String × Except Failure String)} {sinks : Sinks} {part rest : List UInt8}
      (output : (Sink.ofRoom (rooms .output)).Takes (sent o (done ++ [file]) .output) sinks.output)
      (split : bytesOf o file .diagnostics = part ++ rest) (rest_ne : rest ≠ [])
      (diagnostics : (Sink.ofRoom (rooms .diagnostics)).Takes (sent o done .diagnostics ++ part)
        sinks.diagnostics)
      (full : sinks.diagnostics.room = some 0) :
      Ends o rooms (done.map readable ++ readable file :: behind) sinks (.error Batch.full)

theorem sent_append (o : Options) (done files : List (String × String)) (c : Channel) :
    sent o (done ++ files) c = sent o done c ++ sent o files c :=
  List.flatMap_append

theorem sent_concat (o : Options) (done : List (String × String)) (file : String × String)
    (c : Channel) : sent o (done ++ [file]) c = sent o done c ++ bytesOf o file c := by
  rw [sent_append, sent, sent, List.flatMap_singleton]

theorem summaryOf_concat (done : List (String × String)) (file : String × String) :
    summaryOf (done ++ [file]) = (summaryOf done).add (problems file).length := by
  simp only [summaryOf, Summary.add, List.length_append, List.countP_append, List.map_append,
    List.sum_append]
  cases hproblems : problems file <;> simp [hproblems]

theorem ends_run {o : Options} {rooms : Channel → Option Nat} {done : List (String × String)}
    {sinks : Sinks} (files : List (String × Except Failure String))
    (takes : ∀ c, (Sink.ofRoom (rooms c)).Takes (sent o done c) (sinks.sink c)) :
    Ends o rooms (done.map readable ++ files) (run o sinks (summaryOf done) files).1
      (run o sinks (summaryOf done) files).2 := by
  induction files generalizing done sinks with
  | nil =>
      rw [List.append_nil]
      exact .whole takes
  | cons file files ih =>
      obtain ⟨name, source⟩ := file
      cases source with
      | error failure => exact .unreadable takes
      | ok source =>
          have hreported := reported_process o sinks name source
          rw [run]
          generalize process o sinks name source = answer at hreported ⊢
          obtain ⟨after, result⟩ := answer
          cases hreported with
          | whole now =>
              -- The file joins those that are done, and the summary is the one of all of them.
              have hnext : ∀ c, (Sink.ofRoom (rooms c)).Takes
                  (sent o (done ++ [(name, source)]) c) (after.sink c) := by
                intro c
                rw [sent_concat]
                exact (takes c).trans (now c)
              have hrest := ih hnext
              rw [summaryOf_concat, List.map_append, List.append_assoc] at hrest
              exact hrest
          | cutOutput cut =>
              obtain ⟨part, rest, hsplit, hne, hpart, hfull⟩ := cut.exists_part
              exact .cutOutput hsplit hne ((takes .output).trans hpart) hfull (takes .diagnostics)
          | cutDiagnostics now cut =>
              obtain ⟨part, rest, hsplit, hne, hpart, hfull⟩ := cut.exists_part
              refine .cutDiagnostics ?_ hsplit hne ((takes .diagnostics).trans hpart) hfull
              rw [sent_concat]
              exact (takes .output).trans now

/-- The files in front of the first one that cannot be read. -/
def leading : List (String × Except Failure String) → List (String × String)
  | (name, .ok source) :: files => (name, source) :: leading files
  | (_, .error _) :: _ => []
  | [] => []

theorem leading_append (done : List (String × String))
    (behind : List (String × Except Failure String)) :
    leading (done.map readable ++ behind) = done ++ leading behind := by
  induction done with
  | nil => rfl
  | cons file done ih => simp [readable, leading, ih]

theorem leading_map (done : List (String × String)) : leading (done.map readable) = done := by
  have h := leading_append done []
  rwa [List.append_nil, leading, List.append_nil] at h

theorem sent_stopped (o : Options) (done : List (String × String)) (file : String × String)
    (behind : List (String × Except Failure String)) (c : Channel) :
    sent o (leading (done.map readable ++ readable file :: behind)) c =
      sent o done c ++ (bytesOf o file c ++ sent o (leading behind) c) := by
  rw [leading_append, sent_append]
  rfl

/-- Of what is sent some bytes are behind those for which there was room. -/
theorem length_lt_sent_stopped {o : Options} {file : String × String} {c : Channel}
    {part rest : List UInt8} (split : bytesOf o file c = part ++ rest) (rest_ne : rest ≠ [])
    (done : List (String × String)) (behind : List (String × Except Failure String)) :
    (sent o done c ++ part).length <
      (sent o (leading (done.map readable ++ readable file :: behind)) c).length := by
  have hpos := List.length_pos_iff.mpr rest_ne
  rw [sent_stopped, split]
  simp only [List.length_append]
  omega

namespace Ends

variable {o : Options} {rooms : Channel → Option Nat}
  {files : List (String × Except Failure String)} {sinks : Sinks}
  {result : Except Failure Summary}

theorem bytes_begin (h : Ends o rooms files sinks result) (c : Channel) :
    (sinks.sink c).bytes <+: sent o (leading files) c := by
  cases h with
  | whole takes => rw [leading_map, (takes c).bytes_of_ofRoom]
  | unreadable takes =>
      rw [leading_append, sent_append, (takes c).bytes_of_ofRoom]
      exact List.prefix_append _ _
  | cutOutput split _ output _ diagnostics =>
      rw [sent_stopped]
      cases c with
      | output => simp [Sinks.sink, output.bytes_of_ofRoom, split]
      | diagnostics => simp [Sinks.sink, diagnostics.bytes_of_ofRoom]
  | cutDiagnostics output split _ diagnostics =>
      rw [sent_stopped]
      cases c with
      | output => simp [Sinks.sink, output.bytes_of_ofRoom, sent_concat]
      | diagnostics => simp [Sinks.sink, diagnostics.bytes_of_ofRoom, split]

theorem bytes_of_unlimited (h : Ends o (fun _ ↦ none) files sinks result) (c : Channel) :
    (sinks.sink c).bytes = sent o (leading files) c := by
  cases h with
  | whole takes => rw [leading_map, (takes c).bytes_of_ofRoom]
  | unreadable takes =>
      rw [leading_append, leading, List.append_nil, (takes c).bytes_of_ofRoom]
  | cutOutput _ _ output hfull => cases output.room_eq_length hfull
  | cutDiagnostics _ _ _ diagnostics hfull => cases diagnostics.room_eq_length hfull

/-- What cuts a batch off is a channel on which more is sent than there is room for. -/
theorem ok_iff (h : Ends o rooms files sinks result) :
    (∃ summary, result = .ok summary) ↔
      (∀ file ∈ files, ∃ source, file.2 = .ok source) ∧
        ∀ c room, rooms c = some room → (sent o (leading files) c).length ≤ room := by
  cases h with
  | @whole done _ takes =>
      refine ⟨fun _ ↦ ⟨?_, ?_⟩, fun _ ↦ ⟨summaryOf done, rfl⟩⟩
      · intro file hfile
        obtain ⟨source, -, rfl⟩ := List.mem_map.mp hfile
        exact ⟨source.2, rfl⟩
      · intro c room hroom
        have htakes := takes c
        rw [hroom] at htakes
        rw [leading_map]
        exact htakes.length_le
  | unreadable takes =>
      constructor
      · simp
      · rintro ⟨hreadable, -⟩
        simpa using hreadable (_, .error _) (List.mem_append_right _ List.mem_cons_self)
  | cutOutput split rest_ne output hfull =>
      constructor
      · simp
      · rintro ⟨-, hfits⟩
        have hle := hfits .output _ (output.room_eq_length hfull)
        exact absurd hle (Nat.not_le_of_lt (length_lt_sent_stopped split rest_ne _ _))
  | cutDiagnostics _ split rest_ne diagnostics hfull =>
      constructor
      · simp
      · rintro ⟨-, hfits⟩
        have hle := hfits .diagnostics _ (diagnostics.room_eq_length hfull)
        exact absurd hle (Nat.not_le_of_lt (length_lt_sent_stopped split rest_ne _ _))

theorem summary_eq {summary : Summary} (h : Ends o rooms files sinks (.ok summary)) :
    ∃ done, files = done.map readable ∧ summary = summaryOf done := by
  cases h with
  | whole takes => exact ⟨_, rfl, rfl⟩

theorem failure_of {failure : Failure} (h : Ends o rooms files sinks (.error failure)) :
    failure = full ∨ ∃ name, (name, .error failure) ∈ files := by
  cases h with
  | unreadable takes => exact .inr ⟨_, List.mem_append_right _ List.mem_cons_self⟩
  | cutOutput => exact .inl rfl
  | cutDiagnostics => exact .inl rfl

end Ends

theorem isClean_summaryOf (done : List (String × String)) :
    (summaryOf done).isClean = true ↔ (summaryOf done).filesWithErrors = 0 := by
  have herrors : (summaryOf done).errors = 0 ↔ ∀ file ∈ done, problems file = [] := by
    simp only [summaryOf, List.sum_eq_zero_iff, List.forall_mem_map, List.length_eq_zero_iff]
  have hfiles : (summaryOf done).filesWithErrors = 0 ↔ ∀ file ∈ done, problems file = [] := by
    simp [summaryOf, List.countP_eq_zero]
  rw [hfiles, ← herrors]
  exact beq_iff_eq

/-- A file that cannot be read is an error of input and output. -/
theorem failure_of_mem_sources {read : String → Except String String} {input : String}
    {names : List String} {name : String} {failure : Failure}
    (h : (name, .error failure) ∈ sources read input names) :
    ∃ reason, failure = ⟨.inputOutput reason, none⟩ := by
  induction names generalizing input with
  | nil => cases h
  | cons first names ih =>
      rw [sources] at h
      split at h
      · rcases List.mem_cons.mp h with h | h
        · cases h
        · exact ih h
      · rcases List.mem_cons.mp h with h | h
        · cases hread : read first with
          | ok text => simp [hread] at h
          | error reason =>
              rw [hread] at h
              cases h
              exact ⟨_, rfl⟩
        · exact ih h

theorem run_singleton (o : Options) (sinks : Sinks) (summary : Summary) (name source : String) :
    (run o sinks summary [(name, .ok source)]).1 = (process o sinks name source).1 := by
  rw [run]
  cases process o sinks name source with
  | mk after result => cases result <;> rfl

/-- A batch ends in one of four ways. Each sink holds a beginning of what it would hold if it had no
bound, and the batch succeeds exactly if all files can be read and all bytes fit. -/
theorem ends_of_run (o : Options) (rooms : Channel → Option Nat)
    (files : List (String × Except Failure String)) :
    let sinks := (run o (.ofRooms rooms) {} files).1
    let result := (run o (.ofRooms rooms) {} files).2
    let everything := (run o (.ofRooms fun _ ↦ none) {} files).1
    Ends o rooms files sinks result ∧
      (∀ c, (sinks.sink c).bytes <+: (everything.sink c).bytes) ∧
      ((∃ summary, result = .ok summary) ↔
        (∀ file ∈ files, ∃ source, file.2 = .ok source) ∧
          ∀ c room, rooms c = some room → (everything.sink c).bytes.length ≤ room) ∧
      (∀ summary, result = .ok summary →
        (∃ done, files = done.map readable ∧ summary = summaryOf done) ∧
          (summary.isClean = true ↔ summary.filesWithErrors = 0)) ∧
      (∀ read input names, files = sources read input names → ∀ failure,
        result = .error failure → ∃ reason, failure = ⟨.inputOutput reason, none⟩) ∧
      ∀ name source,
        let after := (process o (.ofRooms rooms) name source).1
        let whole := (process o (.ofRooms fun _ ↦ none) name source).1
        Reported o (name, source) (.ofRooms rooms) after
            (process o (.ofRooms rooms) name source).2 ∧
          ∀ c, (after.sink c).bytes <+: (whole.sink c).bytes := by
  have hends (rooms : Channel → Option Nat) (files : List (String × Except Failure String)) :
      Ends o rooms files (run o (.ofRooms rooms) {} files).1
        (run o (.ofRooms rooms) {} files).2 := by
    have hstart : ∀ c, (Sink.ofRoom (rooms c)).Takes (sent o [] c)
        ((Sinks.ofRooms rooms).sink c) := by
      intro c
      rw [Sinks.sink_ofRooms]
      exact .nil _
    exact ends_run files hstart
  have hbegin (files : List (String × Except Failure String)) (c : Channel) :
      ((run o (.ofRooms rooms) {} files).1.sink c).bytes <+:
        ((run o (.ofRooms fun _ ↦ none) {} files).1.sink c).bytes := by
    rw [(hends _ files).bytes_of_unlimited]
    exact (hends rooms files).bytes_begin c
  intro sinks result everything
  have h : Ends o rooms files sinks result := hends rooms files
  refine ⟨h, hbegin files, ?_, ?_, ?_, ?_⟩
  · simp only [everything, (hends _ files).bytes_of_unlimited]
    exact h.ok_iff
  · intro summary hok
    rw [hok] at h
    obtain ⟨done, hfiles, rfl⟩ := h.summary_eq
    exact ⟨⟨done, hfiles, rfl⟩, isClean_summaryOf done⟩
  · rintro read input names rfl failure herror
    rw [herror] at h
    rcases h.failure_of with rfl | ⟨name, hname⟩
    · exact ⟨_, rfl⟩
    · exact failure_of_mem_sources hname
  · intro name source
    refine ⟨reported_process o _ name source, fun c ↦ ?_⟩
    have hone := hbegin [(name, .ok source)] c
    rw [run_singleton, run_singleton] at hone
    exact hone

/-- Two bytes of a problem fit. Without a bound both files are counted. -/
theorem ends_of_run_cut :
    let rooms : Channel → Option Nat := fun c ↦ if c = .diagnostics then some 2 else none
    let files : List (String × Except Failure String) := [("a", .ok ""), ("b", .ok "x")]
    let sinks := (run {} (.ofRooms rooms) {} files).1
    sinks.output.text = "(source_file)\n(source_file (ERROR (identifier)))\n" ∧
      sinks.diagnostics.text = "b:" ∧
      (¬ ∃ summary, (run {} (.ofRooms rooms) {} files).2 = .ok summary) ∧
      ∃ summary, (run {} (.ofRooms fun _ ↦ none) {} files).2 = .ok summary ∧
        summary.files = 2 ∧ (summary.isClean = true ↔ summary.filesWithErrors = 0) := by
  intro rooms files sinks
  have hreadable : ∀ file ∈ files, ∃ source, file.2 = .ok source := by simp [files]
  have hlength : 2 < ((run {} (.ofRooms fun _ ↦ none) {} files).1.sink
      .diagnostics).bytes.length := by decide +kernel
  obtain ⟨-, -, hok, -⟩ := ends_of_run {} rooms files
  obtain ⟨-, -, hok', hsummary, -⟩ := ends_of_run {} (fun _ ↦ none) files
  obtain ⟨summary, hwhole⟩ := hok'.mpr ⟨hreadable, by simp⟩
  obtain ⟨⟨done, hfiles, hdone⟩, hclean⟩ := hsummary summary hwhole
  have hcount : done.length = 2 := by
    rw [← List.length_map readable, ← hfiles]
    rfl
  refine ⟨by decide +kernel, by decide +kernel, ?_, summary, hwhole, hdone ▸ hcount, hclean⟩
  intro hcut
  have hle := (hok.mp hcut).2 .diagnostics 2 rfl
  omega

end CoolTree.Batch
