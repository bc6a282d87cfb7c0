import TickMachine.Proofs.CommandLine.Files
import TickMachine.Proofs.Image.Stored

/-! The commands in a directory. All but translation only read it. -/

namespace TickMachine.CommandLine

variable {d d' : Directory} {path path' source text : String} {arguments : List String}
  {verbose : Bool}

namespace Spec

variable {spec : Spec} {g : Given} {argument : String} {rest : List String}

theorem scan_word (h : namesOption argument = false) : spec.scan g (argument :: rest) =
    if spec.hasCommands then .ok (.command argument rest g)
    else spec.addOperand g argument >>= fun g => spec.scan g rest := by
  have hne : argument ≠ "--" := by
    rintro rfl
    cases h
  rw [scan, if_neg hne, h]
  rfl

theorem scan_verbose (hspec : spec.options.find? (·.short == 'v') = some verboseOption)
    (hg : g.has "verbose" = false) : spec.scan g ("-v" :: rest) =
      spec.scan { g with options := ("verbose", "") :: g.options } rest := by
  have hadd : g.addOption verboseOption "" =
      .ok { g with options := ("verbose", "") :: g.options } := by
    have hnot : ¬ g.has verboseOption.long := Bool.eq_false_iff.1 hg
    rw [Given.addOption, if_neg hnot]
    rfl
  have hread : spec.readShorts g ['v'] =
      .ok (.given { g with options := ("verbose", "") :: g.options }) := by
    rw [readShorts, hspec]
    change (g.addOption verboseOption "" >>= fun g => spec.readShorts g []) = _
    rw [hadd]
    rfl
  have hne : "-v" ≠ "--" := by decide
  have hnames : namesOption "-v" := by decide
  rw [scan, if_neg hne, if_pos hnames]
  change (spec.readShorts g ['v'] >>= _) = _
  rw [hread]
  rfl

end Spec

section Requests

variable {name : CommandName} {g own : Given} {rest : List String}

theorem request_of_scan
    (htop : topSpec.scan .none arguments = .ok (.command name.spec.name rest g))
    (hscan : name.spec.scan .none rest = .ok (.given own)) :
    request arguments =
      (command name own).map (.execute (g.has "verbose" || own.has "verbose")) := by
  have hfound : CommandName.ofText? name.spec.name = some name := by cases name <;> decide
  have hhelp : name.spec.name ≠ "help" := by cases name <;> decide
  unfold request
  rw [htop]
  simp only [bind, Except.bind, if_neg hhelp, hfound, hscan]
  cases command name own with
  | ok c => rfl
  | error fault => rfl

theorem namesOption_name (name : CommandName) : Spec.namesOption name.spec.name = false := by
  cases name <;> decide

theorem scan_path (name : CommandName) (h : Spec.namesOption path = false) :
    name.spec.scan .none (path :: rest) = name.spec.scan ⟨[], [path]⟩ rest := by
  rw [Spec.scan_word h]
  cases name <;> rfl

theorem command_verbose (name : CommandName) (path : String) :
    command name ⟨[("verbose", "")], [path]⟩ = command name ⟨[], [path]⟩ := by
  cases name <;> rfl

theorem request_path (name : CommandName) (h : Spec.namesOption path = false) :
    request [name.spec.name, path] = (command name ⟨[], [path]⟩).map (.execute false) :=
  request_of_scan (Spec.scan_word (namesOption_name name)) (scan_path name h)

theorem request_path_verbose (name : CommandName) (h : Spec.namesOption path = false) :
    request [name.spec.name, path, "-v"] = (command name ⟨[], [path]⟩).map (.execute true) := by
  have hoption : name.spec.options.find? (·.short == 'v') = some verboseOption := by
    cases name <;> rfl
  have hscan : name.spec.scan .none [path, "-v"] =
      .ok (.given ⟨[("verbose", "")], [path]⟩) := by
    rw [scan_path name h, Spec.scan_verbose hoption rfl]
    rfl
  rw [request_of_scan (Spec.scan_word (namesOption_name name)) hscan, command_verbose]
  rfl

theorem request_verbose_path (name : CommandName) (h : Spec.namesOption path = false) :
    request ["-v", name.spec.name, path] = (command name ⟨[], [path]⟩).map (.execute true) := by
  have htop : topSpec.scan .none ["-v", name.spec.name, path] =
      .ok (.command name.spec.name [path] ⟨[("verbose", "")], []⟩) := by
    rw [Spec.scan_verbose rfl rfl]
    exact Spec.scan_word (namesOption_name name)
  rw [request_of_scan htop (scan_path name h)]
  rfl

end Requests

theorem performIn_of_request {command : Command}
    (h : request arguments = .ok (.execute verbose command)) :
    performIn d arguments = (execute Directory.access verbose command).run d := by
  unfold performIn perform
  rw [h]
  rfl

theorem run_read_bind {α : Type} (k : Except FileFault String → StateM Directory α) :
    (Directory.access.read path >>= k).run d = (k (d.read path)).run d := rfl

theorem run_write_bind {α : Type} (k : Except FileFault Unit → StateM Directory α) :
    (Directory.access.write path text >>= k).run d =
      match d.write path text with
      | .ok d' => (k (.ok ())).run d'
      | .error fault => (k (.error fault)).run d := by
  have hwrite : (Directory.access.write path text).run d =
      match d.write path text with
      | .ok d' => (.ok (), d')
      | .error fault => (.error fault, d) := by
    change (match d.write path text with
      | .ok d' => (do set d'; return .ok () : StateM Directory (Except FileFault Unit))
      | .error fault => return .error fault).run d = _
    cases d.write path text with
    | ok d' => rfl
    | error fault => rfl
  rw [StateT.run_bind, hwrite]
  cases d.write path text with
  | ok d' => rfl
  | error fault => rfl

theorem loadSource_run (h : d.read path = .ok text) : (loadSource Directory.access path).run d =
    ((Assembly.translate text.toList).mapError .translation, d) := by
  rw [loadSource, run_read_bind, h]
  rfl

theorem loadImage_run (h : d.read path = .ok text) : (loadImage Directory.access path).run d =
    ((Image.read text.toList).mapError .image, d) := by
  rw [loadImage, run_read_bind, h]
  rfl

theorem runProgram_congr {input : Option String} {config : Simulation.Config}
    (h : (loadProgram Directory.access path).run d = (loadProgram Directory.access path').run d) :
    (runProgram Directory.access verbose path input config).run d =
      (runProgram Directory.access verbose path' input config).run d := by
  rw [runProgram, runProgram, StateT.run_bind, StateT.run_bind, h]

theorem listFile_run {image : Image} (hread : d.read path = .ok text)
    (himage : Image.read text.toList = .ok image) :
    (listFile Directory.access path).run d = (⟨image.listing ++ "\n", [], 0⟩, d) := by
  rw [listFile, StateT.run_bind, loadImage_run hread, himage]
  rfl

theorem translateFile_run {o : Outcome} {output : Option String}
    (h : (translateFile Directory.access source output).run d = (o, d')) :
    (o.exitCode = 1 ∧ d' = d) ∨ ∃ text image, o.exitCode = 0 ∧ d.read source = .ok text ∧
      Assembly.translate text.toList = .ok image ∧
      d.write (output.getD (storedPath source)) image.render = .ok d' := by
  rw [translateFile, run_read_bind] at h
  cases hread : d.read source with
  | error fault =>
    rw [hread] at h
    cases h
    exact .inl ⟨rfl, rfl⟩
  | ok text =>
    simp only [hread] at h
    cases htranslate : Assembly.translate text.toList with
    | error fault =>
      simp only [htranslate] at h
      cases h
      exact .inl ⟨rfl, rfl⟩
    | ok image =>
      simp only [htranslate, run_write_bind] at h
      cases hwrite : d.write (output.getD (String.ofList (imagePath source.toList)))
          image.render with
      | error fault =>
        rw [hwrite] at h
        cases h
        exact .inl ⟨rfl, rfl⟩
      | ok d₁ =>
        rw [hwrite] at h
        cases h
        exact .inr ⟨text, image, rfl, rfl, htranslate, hwrite⟩

end TickMachine.CommandLine
