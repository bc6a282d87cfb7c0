import TickMachine.Proofs.CommandLine.Commands
import TickMachine.Session

/-! A program is the same from its source and from its stored image. The assembler makes images that
pass the check, stored images are read back as they were, and neither the commands nor a session
see more of a program than its image. -/

namespace TickMachine

open CommandLine

variable {d d' : Directory} {source text : String} {arguments : List String} {verbose : Bool}
  {image : Image} {o : Outcome}

/-- A source and its image can be put in place of each other. -/
structure CommandLine.Directory.Interchanges (d : Directory) (source : String) (image : Image) :
    Prop where
  stored : d.read (storedPath source) = .ok image.render
  run {verbose : Bool} {input : Option String} {config : Simulation.Config}
    {arguments arguments' : List String}
    (hsource : request arguments = .ok (.execute verbose (.run source input config)))
    (himage : request arguments' = .ok (.execute verbose (.run (storedPath source) input config))) :
    performIn d arguments' = performIn d arguments
  disasm {verbose : Bool} {arguments : List String}
    (h : request arguments = .ok (.execute verbose (.disasm (storedPath source)))) :
    performIn d arguments = (⟨image.listing ++ "\n", [], 0⟩, d)

theorem read_render_of_translate {source : List Char} (h : Assembly.translate source = .ok image)
    (hsize : image.data.length < UInt64.size) : Image.read image.render.toList = .ok image := by
  rw [Image.render, String.toList_ofList, Image.read_write hsize, Assembly.check_of_translate h]
  rfl

theorem interchanges_of_read (hpath : isSourcePath source) (hsource : d.read source = .ok text)
    (htranslate : Assembly.translate text.toList = .ok image)
    (hstored : d.read (storedPath source) = .ok image.render)
    (hread : Image.read image.render.toList = .ok image) : d.Interchanges source image where
  stored := hstored
  run h h' := by
    have hload : (loadProgram Directory.access (storedPath source)).run d =
        (loadProgram Directory.access source).run d := by
      rw [loadProgram, loadProgram, isSourcePath_storedPath hpath, hpath, if_pos rfl,
        if_neg Bool.false_ne_true, loadSource_run hsource, loadImage_run hstored, htranslate, hread]
      rfl
    rw [performIn_of_request h, performIn_of_request h']
    exact runProgram_congr hload
  disasm h := by
    rw [performIn_of_request h]
    exact listFile_run hstored hread

theorem Session.loadImage_translateSource (s s' : Session) {source : List Char} (input : List Char)
    (hsize : ∀ image, Assembly.translate source = .ok image → image.data.length < UInt64.size) :
    (translateSource source >>= fun stored => s.loadImage stored.toList input) =
      s'.loadSource source input := by
  unfold translateSource loadSource
  cases h : Assembly.translate source with
  | error fault => rfl
  | ok image =>
    have hread := read_render_of_translate h (hsize image h)
    change s.loadImage image.render.toList input = _
    rw [loadImage, hread]
    rfl

/-- What holds of a translation on the command line, whatever is in the directory, and of one in a
session, whatever was loaded there. The header of a stored image holds the number of data words in
64 bits. -/
theorem source_and_image_agree :
    (∀ {d d' : Directory} {source : String} {arguments : List String} {verbose : Bool}
      {o : Outcome},
      isSourcePath source →
      request arguments = .ok (.execute verbose (.translate source none)) →
      performIn d arguments = (o, d') →
      (∀ text fault, d.read source = .ok text → Assembly.translate text.toList = .error fault →
        o.exitCode = 1 ∧ d' = d) ∧
      (o.exitCode = 0 → d.Returns (storedPath source) →
        ∃ text image, d.read source = .ok text ∧ Assembly.translate text.toList = .ok image ∧
          (image.data.length < UInt64.size → d'.Interchanges source image))) ∧
    ∀ (s s' : Session) {source : List Char} (input : List Char),
      (∀ image, Assembly.translate source = .ok image → image.data.length < UInt64.size) →
      (Session.translateSource source >>= fun stored => s.loadImage stored.toList input) =
        s'.loadSource source input := by
  refine ⟨fun hpath hrequest hperform => ?_, fun s s' _ input hsize =>
    s.loadImage_translateSource s' input hsize⟩
  rw [performIn_of_request hrequest] at hperform
  have hrun := translateFile_run hperform
  constructor
  · intro text fault hread hfault
    rcases hrun with h | ⟨text', image, -, hread', himage, -⟩
    · exact h
    · rw [hread] at hread'
      cases hread'
      rw [hfault] at himage
      cases himage
  · intro hexit hreturns
    rcases hrun with ⟨hfail, -⟩ | ⟨text, image, -, hread, himage, hwrite⟩
    · rw [hexit] at hfail
      cases hfail
    · refine ⟨text, image, hread, himage, fun hsize => ?_⟩
      have hkept := Directory.read_of_write hwrite hread (lastName_storedPath_ne hpath)
      exact interchanges_of_read hpath hkept himage (hreturns _ _ hwrite)
        (read_render_of_translate himage hsize)

theorem source_and_image_agree_echo :
    let d := Directory.ofFiles [("x.asm", .text ".code\nmov r1, 55\noutput r1\nhlt")]
    let d' := (performIn d ["translate", "x.asm"]).2
    (∃ image, d'.Interchanges "x.asm" image) ∧
    performIn d' ["run", "x.json", "-v"] = performIn d' ["-v", "run", "x.asm"] ∧
    (Session.translateSource ".code\nhlt".toList >>= fun stored =>
      Session.empty.loadImage stored.toList ['a']) =
        (Session.empty.load ⟨[], []⟩ []).loadSource ".code\nhlt".toList ['a'] := by
  intro d d'
  have hrequest : request ["translate", "x.asm"] = .ok (.execute false (.translate "x.asm" none)) :=
    request_path .translate rfl
  have hexit : (performIn d ["translate", "x.asm"]).1.exitCode = 0 := by
    rw [performIn_of_request hrequest]
    rfl
  have hreturns : d.Returns (storedPath "x.asm") := Directory.returns_of_approach rfl
  obtain ⟨text, image, hread, himage, h⟩ :=
    (source_and_image_agree.1 (d := d) (by decide) hrequest rfl).2 hexit hreturns
  obtain rfl : ".code\nmov r1, 55\noutput r1\nhlt" = text := by cases hread; rfl
  obtain rfl : ⟨[⟨0, .number, [1234]⟩, ⟨1, .number, [1234]⟩],
    [⟨0, .mov, [0, 55]⟩, ⟨1, .storeV, [1, 0]⟩, ⟨2, .hlt, []⟩]⟩ = image := by
    cases himage
    rfl
  have hinterchanges := h (by decide)
  have hrun : performIn d' ["run", "x.json", "-v"] = performIn d' ["-v", "run", "x.asm"] :=
    hinterchanges.run (request_verbose_path .run rfl) (request_path_verbose .run rfl)
  refine ⟨⟨_, hinterchanges⟩, hrun, source_and_image_agree.2 _ _ _ fun image himage => ?_⟩
  cases himage
  decide

end TickMachine
