import Microcode.CommandLine.Run
import Microcode.Proofs.Analysis.Standard
import Microcode.Proofs.ControlStore.Loading
import Microcode.Proofs.Encoding.Standard
import Microcode.Proofs.Report.Listing

/-!
# How runs of the command line end

A run makes the table of encodings and then goes one of three ways: it
prints the table, it disassembles one opcode, or it lists a store. Each way
is an equation on what the session prints and how it ends
(`perform_run_of_patterns` and its neighbours).

- **All or nothing** (`outcome_all_or_nothing`): the table can always be
  made, an opcode or a store is read before anything is printed, and
  printing does not fail. So there are two faults, `Settings.Fails`, and
  with either of them nothing has been printed. That settings ask for one of
  the three ways is all that is needed of them, and so it is of those that
  come of arguments (`admitted_of_readArguments`).
- **One opcode and its line** (`outcome_opcode_eq_line`): a line of a
  listing ends with what is shown for its word alone.
-/

namespace Microcode.CommandLine

/-! ## Sessions -/

namespace Session

variable {α ε : Type} {fault : ε → RunFault} {x : Except ε α} {next : α → Session Unit}

theorem perform_require_ok {a : α} (h : x = .ok a) :
    (require fault x >>= next).perform = (next a).perform := by
  rw [h]
  rfl

theorem perform_require_error {e : ε} (h : x = .error e) :
    (require fault x >>= next).perform = (.error (fault e), "") := by
  rw [h]
  rfl

theorem perform_print (text : String) : (print text).perform = (.ok (), text) := by
  show ((.ok (), "" ++ text) : Except RunFault Unit × String) = _
  rw [String.empty_append]

end Session

/-! ## Runs, one way at a time -/

theorem Settings.exists_disassembler (s : Settings) :
    ∃ d, Disassembler.standard s.options = .ok d :=
  exists_ofRows_standard s.resolution

section

variable (s : Settings) (file : String → Except FileFault ByteArray) {d : Disassembler}
variable (hd : Disassembler.standard s.options = .ok d)

include hd

theorem perform_run_of_patterns (hpatterns : s.patterns = true) :
    (run s file).perform = (.ok (), Report.encodings d.table) := by
  rw [run, Session.perform_require_ok hd, if_pos hpatterns, Session.perform_print]

variable (hpatterns : s.patterns = false)

include hpatterns

section

variable {text : String} (hopcode : s.opcode = some text)

include hopcode

theorem perform_run_of_opcode {w : Word} (hread : readOpcode text = .ok w) :
    (run s file).perform = (.ok (), opcodeLine d w) := by
  rw [run, Session.perform_require_ok hd, if_neg (Bool.eq_false_iff.mp hpatterns), hopcode,
    Session.perform_require_ok hread, Session.perform_print]

theorem perform_run_of_opcode_error {fault : OpcodeFault} (hread : readOpcode text = .error fault) :
    (run s file).perform = (.error (.opcode text fault), "") := by
  rw [run, Session.perform_require_ok hd, if_neg (Bool.eq_false_iff.mp hpatterns), hopcode,
    Session.perform_require_error hread]

end

variable {path : String} (hopcode : s.opcode = none) (himage : s.image = some path)

include hopcode himage

theorem perform_run_of_image {store : ControlStore}
    (hload : ControlStore.ofFile s.storeFormat (file path) = .ok store) :
    (run s file).perform = (report s (Analysis.ofStore d store)).perform := by
  rw [run, Session.perform_require_ok hd, if_neg (Bool.eq_false_iff.mp hpatterns), hopcode, himage,
    Session.perform_require_ok hload]

theorem perform_run_of_image_error {diagnostic : Diagnostic}
    (hload : ControlStore.ofFile s.storeFormat (file path) = .error diagnostic) :
    (run s file).perform = (.error (.loading path diagnostic), "") := by
  rw [run, Session.perform_require_ok hd, if_neg (Bool.eq_false_iff.mp hpatterns), hopcode, himage,
    Session.perform_require_error hload]

end

theorem exists_perform_report (s : Settings) (a : Analysis) :
    ∃ printed, (report s a).perform = (.ok (), printed) := by
  unfold report
  cases s.format with
  | text => cases s.references <;> exact ⟨_, rfl⟩
  | json => exact ⟨_, rfl⟩

/-! ## What is asked for -/

theorem exists_of_bind_eq_ok {α β ε : Type} {x : Except ε α} {next : α → Except ε β} {b : β}
    (h : x >>= next = .ok b) : ∃ a, x = .ok a ∧ next a = .ok b := by
  cases x with
  | error e => cases h
  | ok a => exact ⟨a, rfl, h⟩

/-- The arguments give no settings that ask for nothing. -/
theorem admitted_of_readArguments {arguments : List String} {environment : Option String}
    {s : Settings} (h : readArguments arguments environment = .ok s) : s.Admitted := by
  obtain ⟨g, -, hsettings⟩ := exists_of_bind_eq_ok h
  unfold Given.settings at hsettings
  split at hsettings
  next => cases hsettings
  next =>
    obtain ⟨resolution, -, hchecked⟩ := exists_of_bind_eq_ok hsettings
    dsimp only at hchecked
    split at hchecked
    next hadmitted =>
      obtain rfl := Except.ok.inj hchecked
      exact hadmitted
    next => cases hchecked

/-- The faults that there are: an opcode that cannot be read, and a file
that cannot be loaded, each where it is asked for. -/
inductive Settings.Fails (s : Settings) (file : String → Except FileFault ByteArray) :
    RunFault → Prop where
  | opcode {text : String} {fault : OpcodeFault} (hpatterns : s.patterns = false)
      (hopcode : s.opcode = some text) (hread : readOpcode text = .error fault) :
      Fails s file (.opcode text fault)
  | loading {path : String} {diagnostic : Diagnostic} (hpatterns : s.patterns = false)
      (hopcode : s.opcode = none) (himage : s.image = some path)
      (hload : ControlStore.ofFile s.storeFormat (file path) = .error diagnostic) :
      Fails s file (.loading path diagnostic)

theorem Settings.Fails.perform_run {s : Settings} {file : String → Except FileFault ByteArray}
    {fault : RunFault} (h : s.Fails file fault) : (run s file).perform = (.error fault, "") := by
  obtain ⟨d, hd⟩ := s.exists_disassembler
  cases h with
  | opcode hpatterns hopcode hread =>
      exact perform_run_of_opcode_error s file hd hpatterns hopcode hread
  | loading hpatterns hopcode himage hload =>
      exact perform_run_of_image_error s file hd hpatterns hopcode himage hload

/-- What does not fail is done. -/
theorem fails_or_perform_run_eq_ok {s : Settings} (h : s.Admitted)
    (file : String → Except FileFault ByteArray) :
    (∃ fault, s.Fails file fault) ∨ ∃ printed, (run s file).perform = (.ok (), printed) := by
  obtain ⟨d, hd⟩ := s.exists_disassembler
  cases hpatterns : s.patterns with
  | true => exact .inr ⟨_, perform_run_of_patterns s file hd hpatterns⟩
  | false =>
      cases hopcode : s.opcode with
      | some text =>
          cases hread : readOpcode text with
          | error fault => exact .inl ⟨_, .opcode hpatterns hopcode hread⟩
          | ok w => exact .inr ⟨_, perform_run_of_opcode s file hd hpatterns hopcode hread⟩
      | none =>
          have himage : s.image.isSome := by simpa [Settings.Admitted, hpatterns, hopcode] using h
          obtain ⟨path, hpath⟩ := Option.isSome_iff_exists.mp himage
          cases hload : ControlStore.ofFile s.storeFormat (file path) with
          | error diagnostic => exact .inl ⟨_, .loading hpatterns hopcode hpath hload⟩
          | ok store =>
              obtain ⟨printed, hprinted⟩ := exists_perform_report s (Analysis.ofStore d store)
              refine .inr ⟨printed, ?_⟩
              rw [perform_run_of_image s file hd hpatterns hopcode hpath hload, hprinted]

theorem ending_eq_error_iff {s : Settings} (h : s.Admitted)
    (file : String → Except FileFault ByteArray) {fault : RunFault} :
    (run s file).perform.1 = .error fault ↔ s.Fails file fault := by
  refine ⟨fun hending => ?_, fun hfails => congrArg Prod.fst hfails.perform_run⟩
  rcases fails_or_perform_run_eq_ok h file with ⟨fault', hfails⟩ | ⟨printed, hok⟩
  · rw [hfails.perform_run] at hending
    obtain rfl := Except.error.inj hending
    exact hfails
  · rw [hok] at hending
    cases hending

theorem Outcome.ofSession_of_ok {x : Except RunFault Unit × String} (h : x.1 = .ok ()) :
    ofSession x = { exit := 0, output := x.2 } := by
  obtain ⟨ending, printed⟩ := x
  obtain rfl : ending = .ok () := h
  rfl

theorem Settings.Fails.outcome_eq {s : Settings} {file : String → Except FileFault ByteArray}
    {fault : RunFault} (h : s.Fails file fault) :
    s.outcome file = { exit := 1, errors := "Error: " ++ fault.message ++ "\n" } := by
  rw [Settings.outcome, h.perform_run, Outcome.ofSession]

theorem exists_fails_iff {s : Settings} {file : String → Except FileFault ByteArray} :
    (∃ fault, s.Fails file fault) ↔
      s.patterns = false ∧
        ((∃ text fault, s.opcode = some text ∧ readOpcode text = .error fault) ∨
          s.opcode = none ∧ ∃ path diagnostic, s.image = some path ∧
            ControlStore.ofFile s.storeFormat (file path) = .error diagnostic) := by
  constructor
  · rintro ⟨fault, hfails⟩
    cases hfails with
    | @opcode text fault hpatterns hopcode hread =>
        exact ⟨hpatterns, .inl ⟨text, fault, hopcode, hread⟩⟩
    | @loading path diagnostic hpatterns hopcode himage hload =>
        exact ⟨hpatterns, .inr ⟨hopcode, path, diagnostic, himage, hload⟩⟩
  · rintro ⟨hpatterns, ⟨text, fault, hopcode, hread⟩ | ⟨hopcode, path, diagnostic, himage, hload⟩⟩
    · exact ⟨_, .opcode hpatterns hopcode hread⟩
    · exact ⟨_, .loading hpatterns hopcode himage hload⟩

/-- A run knows of its file only the store that it loads. -/
theorem outcome_eq_of_ofFile {s : Settings} {path path' : String} {store : ControlStore}
    {file file' : String → Except FileFault ByteArray}
    (hload : ControlStore.ofFile .hexText (file path) = .ok store)
    (hload' : ControlStore.ofFile .binary (file' path') = .ok store) :
    ({ s with image := some path, binary := false } : Settings).outcome file =
      ({ s with image := some path', binary := true } : Settings).outcome file' := by
  obtain ⟨d, hd⟩ := s.exists_disassembler
  let t : Settings := { s with image := some path, binary := false }
  let t' : Settings := { s with image := some path', binary := true }
  have hperform : (run t file).perform = (run t' file').perform := by
    rcases Bool.eq_false_or_eq_true s.patterns with hpatterns | hpatterns
    · rw [perform_run_of_patterns t file hd hpatterns, perform_run_of_patterns t' file' hd hpatterns]
    rcases Option.eq_none_or_eq_some s.opcode with hopcode | ⟨text, hopcode⟩
    · rw [perform_run_of_image t file hd hpatterns hopcode rfl hload,
        perform_run_of_image t' file' hd hpatterns hopcode rfl hload']
      rfl
    · cases hread : readOpcode text with
      | error fault =>
          rw [perform_run_of_opcode_error t file hd hpatterns hopcode hread,
            perform_run_of_opcode_error t' file' hd hpatterns hopcode hread]
      | ok w =>
          rw [perform_run_of_opcode t file hd hpatterns hopcode hread,
            perform_run_of_opcode t' file' hd hpatterns hopcode hread]
  show t.outcome file = t'.outcome file'
  rw [Settings.outcome, hperform, Settings.outcome]

/-- Where something is asked for, a run fails for an opcode that cannot be
read or a file that cannot be loaded, and for nothing else: never for the
table, nor for want of a file to list. A run that fails has printed nothing.
A listing does not depend on whether the store came from a text or from its
bytes. -/
theorem outcome_all_or_nothing {s : Settings} (h : s.Admitted)
    (file : String → Except FileFault ByteArray) :
    let ending := (run s file).perform.1
    let printed := (run s file).perform.2
    ((∃ fault, ending = .error fault) ↔
      s.patterns = false ∧
        ((∃ text fault, s.opcode = some text ∧ readOpcode text = .error fault) ∨
          s.opcode = none ∧ ∃ path diagnostic, s.image = some path ∧
            ControlStore.ofFile s.storeFormat (file path) = .error diagnostic)) ∧
      (∀ fault, ending = .error fault →
        printed = "" ∧ (∀ diagnostic, fault ≠ .table diagnostic) ∧ fault ≠ .noImage ∧
          s.outcome file = { exit := 1, errors := "Error: " ++ fault.message ++ "\n" }) ∧
      (ending = .ok () → s.outcome file = { exit := 0, output := printed }) ∧
      ∀ (path path' text : String) (bytes : ByteArray) (store : ControlStore)
        (file' : String → Except FileFault ByteArray),
        file path = .ok text.toUTF8 → ControlStore.TextOf text.toList store.words.toList →
        file' path' = .ok bytes → bytes.data.toList = store.toBytes →
        ({ s with image := some path, binary := false } : Settings).outcome file =
          ({ s with image := some path', binary := true } : Settings).outcome file' := by
  intro ending printed
  have hending : ∀ fault, ending = .error fault ↔ s.Fails file fault :=
    fun fault => ending_eq_error_iff h file
  refine ⟨?_, fun fault hfault => ?_, fun hok => ?_, ?_⟩
  · rw [← exists_fails_iff]
    exact exists_congr hending
  · have hfails := (hending fault).mp hfault
    refine ⟨congrArg Prod.snd hfails.perform_run, ?_, ?_, hfails.outcome_eq⟩
    · rintro diagnostic rfl
      cases hfails
    · rintro rfl
      cases hfails
  · rw [Settings.outcome]
    exact Outcome.ofSession_of_ok hok
  · intro path path' text bytes store file' hfile htext hfile' hbytes
    exact outcome_eq_of_ofFile (ControlStore.ofFile_hexText_of_textOf hfile htext)
      (ControlStore.ofFile_binary_of_toBytes hfile' hbytes)

theorem outcome_all_or_nothing_branches :
    let s : Settings := { image := some "store", references := true }
    let store : ControlStore := ⟨Vector.replicate storeSize 0xC001⟩
    let digits := store.words.toList.map fun w => Hex.digits 4 w.toNat
    let text := String.ofList (['\n'].intercalate digits)
    s.Admitted ∧
      (∃ errors, (s.outcome fun _ => .error .notFound) = { exit := 1, errors }) ∧
      (s.outcome fun _ => .ok text.toUTF8) =
        ({ s with binary := true } : Settings).outcome fun _ => .ok ⟨store.toBytes.toArray⟩ := by
  intro s store digits text
  have hadmitted : s.Admitted := by decide
  have hall := outcome_all_or_nothing hadmitted
  have htext : ControlStore.TextOf text.toList store.words.toList := by
    rw [String.toList_ofList]
    exact ControlStore.textOf_intercalate store.words.toList
  refine ⟨hadmitted, ?_, ?_⟩
  · obtain ⟨hfails, hnothing, -⟩ := hall fun _ => .error .notFound
    obtain ⟨fault, hfault⟩ := hfails.mpr ⟨rfl, .inr ⟨rfl, "store", _, rfl, rfl⟩⟩
    exact ⟨_, (hnothing fault hfault).2.2.2⟩
  · exact (hall fun _ => .ok text.toUTF8).2.2.2 "store" "store" text _ store _ rfl htext rfl rfl

/-! ## One opcode and its line in a listing -/

/-- Whoever asks for a single opcode, in whatever spelling, is shown the line
that the opcode has at any address of any store that holds it there, without
what stands before the opcode in a listing: the flags, if they are listed,
and the three digits of the address, a colon and a blank. What is left are
the four digits of the opcode, two blanks and the instruction. -/
theorem outcome_opcode_eq_line {s : Settings} (hpatterns : s.patterns = false) {text : String}
    (hopcode : s.opcode = some text) (store : ControlStore) (a : Fin storeSize)
    (hread : readOpcode text = .ok store.words[a])
    (file : String → Except FileFault ByteArray) (options : Report.ListingOptions) :
    ∃ r e rest, Analysis.standard s.options store = .ok r ∧ r.entries[a.val]? = some e ∧
      (((Report.listing options r).toList.splitOn '\n').filter (· ≠ []))[a.val]? =
        some ((Report.flagColumn options e.flags).toList ++
          ([(a.val / 256).digitChar, (a.val / 16 % 16).digitChar, (a.val % 16).digitChar] ++
            ([':', ' '] ++ rest))) ∧
      s.outcome file = { exit := 0, output := String.ofList rest ++ "\n" } ∧
      String.ofList rest = Hex.text 4 store.words[a].toNat ++ "  " ++ e.instruction.text := by
  obtain ⟨d, hd⟩ := s.exists_disassembler
  have hnewline : ∀ e ∈ (Analysis.ofStore d store).entries,
      '\n' ∉ e.instruction.text.toList := by
    intro e he
    rw [(Analysis.word?_of_mem_entries he).2]
    exact (Disassembler.built_of_ofRows hd).newline_not_mem_text
      (Row.newline_not_mem_standard s.resolution) e.word
  obtain ⟨e, he, haddress⟩ := Analysis.exists_getElem?_entries d store a.isLt
  obtain ⟨hword, hinstruction⟩ := Analysis.word?_of_mem_entries (List.mem_of_getElem? he)
  have heq : store.words[a] = e.word := by
    rw [haddress] at hword
    exact (Vector.getElem?_eq_some_iff.mp hword).2
  rw [heq] at hread ⊢
  have hrest : String.ofList (Hex.digits 4 e.word.toNat ++ ([' ', ' '] ++
      e.instruction.text.toList)) = Hex.text 4 e.word.toNat ++ "  " ++ e.instruction.text := by
    rw [String.ofList_append, String.ofList_append, String.ofList_toList, Hex.text,
      String.append_assoc]
  refine ⟨Analysis.ofStore d store, e,
    Hex.digits 4 e.word.toNat ++ ([' ', ' '] ++ e.instruction.text.toList),
    Analysis.standard_eq_ofStore hd store, he, ?_, ?_, hrest⟩
  · rw [Report.filter_splitOn_listing hnewline, List.getElem?_map, he, Option.map_some,
      Report.toList_entryLine, haddress, Hex.digits_three a.isLt]
  · rw [Settings.outcome, perform_run_of_opcode s file hd hpatterns hopcode hread,
      Outcome.ofSession, hrest, hinstruction, opcodeLine]

theorem outcome_opcode_eq_line_branches :
    let s : Settings := { opcode := some "0Xc001", resolution := .accessDestination }
    let store : ControlStore := ⟨Vector.replicate storeSize 0xC001⟩
    readOpcode "0Xc001" = .ok 0xC001 ∧
      ∃ r e rest, Analysis.standard s.options store = .ok r ∧ r.entries[0x2A]? = some e ∧
        (((Report.listing {} r).toList.splitOn '\n').filter (· ≠ []))[0x2A]? =
          some ((Report.flagColumn {} e.flags).toList ++ (['0', '2', 'a'] ++ ([':', ' '] ++ rest))) ∧
        (s.outcome fun _ => .error .notFound) =
          { exit := 0, output := String.ofList rest ++ "\n" } := by
  intro s store
  have hread : readOpcode "0Xc001" = .ok 0xC001 := rfl
  have hword : store.words[(⟨0x2A, by decide⟩ : Fin storeSize)] = 0xC001 :=
    Vector.getElem_replicate _
  have hread' : readOpcode "0Xc001" = .ok store.words[(⟨0x2A, by decide⟩ : Fin storeSize)] := by
    rw [hword, hread]
  obtain ⟨r, e, rest, hr, he, hline, houtcome, -⟩ :=
    outcome_opcode_eq_line (s := s) rfl rfl store ⟨0x2A, by decide⟩ hread'
      (fun _ => .error .notFound) {}
  exact ⟨hread, r, e, rest, hr, he, hline, houtcome⟩

end Microcode.CommandLine
