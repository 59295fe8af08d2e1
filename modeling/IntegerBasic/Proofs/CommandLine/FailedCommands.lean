import IntegerBasic.CommandLine.Run

/-!
# Commands that fail

What a command has done to the files before it fails stays done. Still no file is changed by a
command that fails: all that can fail comes before the file is opened, opening it does nothing if it
fails, and behind it nothing fails any more. There is one exception. A text that has been read
leniently may have stray characters, and that they cannot be written shows only when the file is
open.

A part of a command is quiet if it changes no file, sure if it does not fail, and safe if it changes
no file when it fails, but for the exception. What is quiet up to a safe part, and what is safe up to
sure parts, is safe. Safe and sure parts change no other file than the one that the output goes to.
-/

namespace IntegerBasic.CommandLine

open CommandLine.Action
  (halt ofExcept say note read readBytes readText hasStrays room fit openFile append write writeText)

variable {α β : Type} {world : World} {strays : Bool} {output : Option (List Char)}

/-- All files but that of the output have the same bytes. -/
def SameBut (output : Option (List Char)) (before after : World) : Prop :=
  ∀ name, (∀ path, output = some path → name ≠ fileName path) →
    Table.get? after.files name = Table.get? before.files name

def Emptied (output : Option (List Char)) (before after : World) : Prop :=
  ∃ path, output = some path ∧ after = before.put (fileName path) []

def Quiet (action : Action α) : Prop := ∀ session, (action session).2.world = session.world

/-- A part of a command that does not fail and changes no file but that of the output. -/
structure Sure (output : Option (List Char)) (action : Action α) : Prop where
  succeeds : ∀ session, ∃ a, (action session).1 = .ok a
  others : ∀ session, SameBut output session.world (action session).2.world

/-- A part of a command that changes no file when it fails, but that it may empty that of the output
for stray characters, and otherwise none but that of the output. -/
structure Safe (world : World) (strays : Bool) (output : Option (List Char)) (action : Action α) :
    Prop where
  failed : ∀ session reason, session.world = world → (action session).1 = .error reason →
    (action session).2.world = world ∨
      strays = true ∧ Emptied output world (action session).2.world
  others : ∀ session, SameBut output session.world (action session).2.world

theorem SameBut.of_eq {before after : World} (h : after = before) : SameBut output before after := by
  intro name _
  rw [h]

theorem SameBut.trans {before between after : World} (h : SameBut output before between)
    (h' : SameBut output between after) : SameBut output before after :=
  fun name hname => (h' name hname).trans (h name hname)

theorem sameBut_put (world : World) (path : List Char) (bytes : List UInt8) :
    SameBut (some path) world (world.put (fileName path) bytes) := by
  intro name hname
  rw [World.put, Table.get?_put, if_neg fun h => hname path rfl h.symm]

theorem bind_of_ok {action : Action α} {session : Session} {a : α}
    (h : (action session).1 = .ok a) (next : α → Action β) :
    (action >>= next) session = next a (action session).2 := by
  have hsplit : action session = (.ok a, (action session).2) := Prod.ext h rfl
  dsimp only [bind]
  rw [hsplit]

theorem bind_of_error {action : Action α} {session : Session} {reason : Halt}
    (h : (action session).1 = .error reason) (next : α → Action β) :
    (action >>= next) session = (.error reason, (action session).2) := by
  have hsplit : action session = (.error reason, (action session).2) := Prod.ext h rfl
  dsimp only [bind]
  rw [hsplit]

theorem Quiet.safe {action : Action α} (h : Quiet action) : Safe world strays output action where
  failed session _ hworld _ := .inl ((h session).trans hworld)
  others session := .of_eq (h session)

theorem Quiet.bind {action : Action α} {next : α → Action β} (h : Quiet action)
    (hnext : ∀ a, Quiet (next a)) : Quiet (action >>= next) := by
  intro session
  cases hresult : (action session).1 with
  | ok a =>
    rw [bind_of_ok hresult]
    exact (hnext a _).trans (h session)
  | error reason =>
    rw [bind_of_error hresult]
    exact h session

/-- Up to a safe part a command may do what changes no file. -/
theorem Safe.behind {action : Action α} {next : α → Action β} (h : Quiet action)
    (hnext : ∀ a, Safe world strays output (next a)) :
    Safe world strays output (action >>= next) := by
  constructor
  · intro session reason hworld hreason
    have hquiet := (h session).trans hworld
    cases hresult : (action session).1 with
    | ok a =>
      rw [bind_of_ok hresult] at hreason ⊢
      exact (hnext a).failed _ reason hquiet hreason
    | error reason' =>
      rw [bind_of_error hresult]
      exact .inl hquiet
  · intro session
    cases hresult : (action session).1 with
    | ok a =>
      rw [bind_of_ok hresult]
      exact .trans (.of_eq (h session)) ((hnext a).others _)
    | error reason =>
      rw [bind_of_error hresult]
      exact .of_eq (h session)

/-- Behind a safe part a command may do what does not fail. -/
theorem Safe.before {action : Action α} {next : α → Action β} (h : Safe world strays output action)
    (hnext : ∀ a, Sure output (next a)) : Safe world strays output (action >>= next) := by
  constructor
  · intro session reason hworld hreason
    cases hresult : (action session).1 with
    | ok a =>
      rw [bind_of_ok hresult] at hreason
      obtain ⟨b, hb⟩ := (hnext a).succeeds (action session).2
      rw [hb] at hreason
      cases hreason
    | error reason' =>
      rw [bind_of_error hresult]
      exact h.failed session reason' hworld hresult
  · intro session
    cases hresult : (action session).1 with
    | ok a =>
      rw [bind_of_ok hresult]
      exact (h.others session).trans ((hnext a).others _)
    | error reason =>
      rw [bind_of_error hresult]
      exact h.others session

/-- Whether there are stray characters in a text is known from where it was read. -/
theorem Safe.hasStrays {path : List Char} {next : Bool → Action β}
    (hnext : ∀ strays, Safe world strays output (next strays)) :
    Safe world (world.hasStrays path) output (hasStrays path >>= next) where
  failed session reason hworld hreason := by
    subst hworld
    exact (hnext _).failed session reason rfl hreason
  others session := (hnext _).others session

theorem quiet_pure (a : α) : Quiet (pure a) := fun _ => rfl

theorem quiet_halt (reason : Halt) : Quiet (halt reason : Action α) := fun _ => rfl

theorem quiet_say (text : List Char) : Quiet (say text) := fun _ => rfl

theorem quiet_note (text : List Char) : Quiet (note text) := fun _ => rfl

theorem sure_note (text : List Char) : Sure output (note text) :=
  ⟨fun _ => ⟨(), rfl⟩, fun _ => .of_eq rfl⟩

theorem quiet_ofExcept {ε : Type} (message : ε → String) (result : Except ε α) :
    Quiet (ofExcept message result) := by
  cases result with
  | ok a => exact quiet_pure a
  | error fault => exact quiet_halt _

theorem quiet_read (path : List Char) : Quiet (read path) :=
  fun session => quiet_ofExcept _ _ session

theorem quiet_readBytes (path : List Char) : Quiet (readBytes path) :=
  fun session => quiet_ofExcept _ _ session

theorem quiet_readText (path : List Char) : Quiet (readText path) :=
  fun session => quiet_ofExcept _ _ session

theorem quiet_room : Quiet room := fun _ => rfl

theorem quiet_fit (result : Except Grammar.Overflow α) : Quiet (fit result) := by
  cases result with
  | ok a => exact quiet_pure a
  | error overflow => exact quiet_halt _

/-- A file that cannot be opened is left as it is. -/
theorem safe_openFile (path : List Char) : Safe world strays (some path) (openFile path) := by
  constructor
  · intro session reason hworld hreason
    unfold openFile at hreason ⊢
    cases hcan : session.world.canWrite path with
    | error fault => exact .inl hworld
    | ok _ =>
      rw [hcan] at hreason
      cases hreason
  · intro session
    unfold openFile
    cases session.world.canWrite path with
    | error fault => exact .of_eq rfl
    | ok _ => exact sameBut_put session.world path []

theorem sure_append (path : List Char) (bytes : List UInt8) :
    Sure (some path) (append path bytes) :=
  ⟨fun _ => ⟨(), rfl⟩, fun session => sameBut_put session.world path _⟩

theorem safe_write (path : List Char) (bytes : List UInt8) :
    Safe world strays (some path) (write path bytes) :=
  (safe_openFile path).before fun _ => sure_append path bytes

/-- A file is emptied when a text with stray characters is to be written to it. -/
theorem safe_writeText (path text : List Char) (strays : Bool) :
    Safe world strays (some path) (writeText path text strays) := by
  cases strays with
  | false => exact (safe_openFile path).before fun _ => sure_append path _
  | true =>
    constructor
    · intro session reason hworld hreason
      subst hworld
      unfold writeText openFile
      dsimp only [bind]
      cases session.world.canWrite path with
      | error fault => exact .inl rfl
      | ok _ => exact .inr ⟨rfl, path, rfl, rfl⟩
    · intro session
      unfold writeText openFile
      dsimp only [bind]
      cases session.world.canWrite path with
      | error fault => exact .of_eq rfl
      | ok _ => exact sameBut_put session.world path []

theorem safe_deliver (path : Option (Given (List Char))) (text : List Char) (strays : Bool) :
    Safe world strays (path.bind Given.toOption) (deliver path text strays) := by
  unfold deliver
  split
  · exact (quiet_say text).safe
  · exact (quiet_halt _).safe
  · split
    · exact (quiet_say text).safe
    · exact safe_writeText _ _ _

theorem quiet_stored (calls : Nat) (text : List Char) : Quiet (stored calls text) := by
  unfold stored
  cases Record.storeOn calls text with
  | ok code => exact quiet_pure code
  | error fault => exact quiet_halt _

theorem quiet_storedData (code : List UInt8) (image : Bool) (himem lomem : Given Int) :
    Quiet (storedData code image himem lomem) := by
  unfold storedData
  split
  · split
    · exact quiet_ofExcept _ _
    · exact quiet_halt _
  · exact quiet_pure code

theorem safe_runTokenize (verbose : Bool) (input : List Char)
    (output : Option (Given (List Char))) (hex image : Bool) (himem lomem : Given Int) :
    Safe world strays (Command.tokenize input output hex image himem lomem).output?
      (runTokenize verbose input output hex image himem lomem) := by
  refine .behind (quiet_readText input) fun text => ?_
  refine .behind quiet_room fun calls => ?_
  refine .behind (quiet_note _) fun _ => ?_
  refine .behind (quiet_stored calls text) fun code => ?_
  cases hex with
  | true => exact (quiet_say _).safe
  | false =>
    refine .behind (quiet_storedData code image himem lomem) fun data => ?_
    exact (safe_write _ data).before fun _ => sure_note _

theorem quiet_listGiven (settings : Settings) (data : List UInt8)
    (start stop : Option (Given Int)) : Quiet (listGiven settings data start stop) := by
  unfold listGiven
  dsimp only
  split
  · exact quiet_halt _
  · exact quiet_pure _

theorem quiet_listData (settings : Settings) (data : List UInt8) (raw : Bool)
    (start stop : Option (Given Int)) : Quiet (listData settings data raw start stop) := by
  unfold listData
  dsimp only
  split
  · exact quiet_listGiven _ _ _ _
  · exact quiet_listGiven _ _ _ _

theorem safe_runDetokenize (settings : Settings) (input : List Char)
    (output : Option (Given (List Char))) (raw : Bool) (start stop : Option (Given Int)) :
    Safe world false (Command.detokenize input output raw start stop).output?
      (runDetokenize settings input output raw start stop) := by
  refine .behind (quiet_readBytes input) fun data => ?_
  refine .behind (quiet_listData settings data raw start stop) fun listing => ?_
  refine .behind (quiet_note _) fun _ => ?_
  split
  · exact ((quiet_note _).bind fun _ => quiet_halt _).safe
  · exact safe_deliver _ _ _

theorem safe_runCheck (verbose : Bool) (settings : Settings) (input : List Char) :
    Safe world strays (Command.check input).output? (runCheck verbose settings input) := by
  refine .behind (quiet_readText input) fun text => ?_
  refine .behind quiet_room fun calls => ?_
  refine .behind (quiet_fit _) fun _ => ?_
  refine .behind (quiet_ofExcept _ _) fun analysis => ?_
  refine .behind (quiet_note _) fun _ => ?_
  refine .behind (quiet_say _) fun _ => ?_
  split
  · exact (quiet_halt _).safe
  · exact (quiet_pure _).safe

theorem quiet_renumbering (result : Except Renumber.Fault α) : Quiet (renumbering result) := by
  cases result with
  | ok a => exact quiet_pure a
  | error fault => exact quiet_halt _

theorem safe_runRenumber (verbose : Bool) (input : List Char) (start step : Given (List Char))
    (lines : Option Renumber.Selection) (refs : Bool) (output : Option (Given (List Char)))
    (inPlace : Bool) :
    Safe world (world.hasStrays input)
      (Command.renumber input start step lines refs output inPlace).output?
      (runRenumber verbose input start step lines refs output inPlace) := by
  refine .behind (quiet_readText input) fun text => ?_
  refine .hasStrays fun strays => ?_
  refine .behind (quiet_renumbering _) fun _ => ?_
  refine .behind quiet_room fun calls => ?_
  refine .behind (quiet_fit _) fun _ => ?_
  refine .behind (quiet_renumbering _) fun assigned => ?_
  refine .behind (quiet_note _) fun _ => ?_
  refine .behind (quiet_renumbering _) fun edits => ?_
  refine .behind (quiet_renumbering _) fun result => ?_
  cases inPlace with
  | true =>
    rw [if_pos rfl]
    split
    · exact ((quiet_note _).bind fun _ => quiet_halt _).safe
    · exact safe_deliver (some (.value input)) result strays
  | false => exact safe_deliver output result strays

theorem quiet_settingsOf (value : Json) : Quiet (settingsOf value) := by
  unfold settingsOf
  split
  · exact quiet_pure _
  all_goals exact quiet_halt _

theorem quiet_loadSettings (path : Option (List Char)) : Quiet (loadSettings path) := by
  unfold loadSettings
  split
  · exact quiet_pure _
  · exact quiet_pure _
  · refine (quiet_read _).bind fun bytes => ?_
    refine (quiet_ofExcept _ _).bind fun text => ?_
    exact (quiet_ofExcept _ _).bind quiet_settingsOf

/-- The text that a command writes has stray characters. Only a renumbering writes text that it has
read. -/
def Command.writesStrays (world : World) : Command → Bool
  | .renumber input .. => world.hasStrays input
  | _ => false

/-- Every command is safe. -/
theorem safe_runCommand (verbose : Bool) (settings : Settings) (command : Command) :
    Safe world (command.writesStrays world) command.output?
      (runCommand verbose settings command) := by
  cases command with
  | tokenize input output hex image himem lomem =>
    exact safe_runTokenize verbose input output hex image himem lomem
  | detokenize input output raw start stop =>
    exact safe_runDetokenize settings input output raw start stop
  | check input => exact safe_runCheck verbose settings input
  | renumber input start step lines refs output inPlace =>
    exact safe_runRenumber verbose input start step lines refs output inPlace
  | serve host portNumber => exact (quiet_say _).safe

theorem safe_runInvocation (invocation : Invocation) :
    Safe world (invocation.command.writesStrays world) invocation.command.output?
      (runInvocation invocation) :=
  .behind (quiet_loadSettings invocation.settings) fun _ => safe_runCommand _ _ _

theorem Command.writesStrays_of_readsText (h : world.readsText = true) (command : Command) :
    command.writesStrays world = false := by
  cases command <;> simp [writesStrays, World.hasStrays, h]

theorem quiet_advise (stop : Stop) : Quiet (advise stop) := by
  cases stop with
  | help => exact quiet_say usage
  | noCommand => exact (quiet_say usage).bind fun _ => quiet_halt _
  | usage => exact (quiet_note usage).bind fun _ => quiet_halt _

theorem world_conclude (result : Except Halt Unit × Session) :
    (conclude result).2.world = result.2.world := by
  unfold conclude
  split <;> rfl

theorem error_of_conclude {result : Except Halt Unit × Session}
    (h : (conclude result).1 ≠ .exit 0) : ∃ reason, result.1 = .error reason := by
  obtain ⟨result, session⟩ := result
  cases result with
  | ok a => exact absurd rfl h
  | error reason => exact ⟨reason, rfl⟩

/-- A command changes no file but the one that its output goes to. -/
theorem sameBut_perform (world : World) {words : List (List Char)} {invocation : Invocation}
    (h : parse words = .ok invocation) :
    SameBut invocation.command.output? world (perform world words).2.world := by
  have hsafe : Safe world (invocation.command.writesStrays world) _ _ :=
    safe_runInvocation invocation
  rw [perform, h, world_conclude]
  exact hsafe.others _

theorem changedFiles_self (world : World) : changedFiles world world = [] := by
  simp [changedFiles]

/-- A command line that ends with a status other than zero, or in a crash, has changed no file, or it
has emptied the one that stray characters were to be written to. -/
theorem world_of_failed (world : World) (words : List (List Char))
    (hfailed : (perform world words).1 ≠ .exit 0) :
    (perform world words).2.world = world ∨
      ∃ invocation, parse words = .ok invocation ∧
        invocation.command.writesStrays world = true ∧
        Emptied invocation.command.output? world (perform world words).2.world := by
  obtain ⟨reason, hreason⟩ := error_of_conclude hfailed
  rw [perform, world_conclude]
  cases hparse : parse words with
  | error stop => exact .inl (quiet_advise stop _)
  | ok invocation =>
    rw [hparse] at hreason
    cases (safe_runInvocation invocation).failed _ reason rfl hreason with
    | inl hworld => exact .inl hworld
    | inr hemptied => exact .inr ⟨invocation, rfl, hemptied⟩

theorem writes_of_same {words : List (List Char)} (h : (perform world words).2.world = world)
    {outcome : Outcome} (houtcome : run world words = .ok outcome) : outcome.writes = [] := by
  unfold run at houtcome
  cases hperform : perform world words with
  | mk ending session =>
    rw [hperform] at h houtcome
    cases ending with
    | crash crash => cases houtcome
    | exit status =>
      cases houtcome
      have hsession : session.world = world := h
      rw [hsession]
      exact changedFiles_self world

end IntegerBasic.CommandLine
