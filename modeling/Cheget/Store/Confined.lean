-- SUMMARY: Every path that a store names is its root followed by normal names, whatever is on the disk.
import Cheget.Base.PathBuf
import Cheget.Store.Maps

/-!
# Paths stay below the root

The calls of the stores get their paths from validated labels, from numbers, and
from encodings of bytes, and put nothing that they have read into a path as it
stands.
-/

namespace Store

open Cli Crypto PathBuf

/-! ## Names -/

/-- A character of a name: a safe one or a dot. -/
def nameChar (c : Char) : Bool := safeChar c || c == '.'

theorem normal_of_chars {name : String} (hchars : name.toList.all nameChar = true)
    (hempty : name.toList ≠ []) (hdot : name.toList ≠ ['.']) (hdots : name.toList ≠ ['.', '.']) :
    Normal name where
  ne_empty := hempty
  ne_curDir := hdot
  ne_parentDir := hdots
  slash h := absurd (List.all_eq_true.mp hchars _ h) (by decide)
  backslash h := absurd (List.all_eq_true.mp hchars _ h) (by decide)

/-- A name of three characters or more is no dots. -/
theorem normal_of_length {name : String} (hchars : name.toList.all nameChar = true)
    (hlength : 2 < name.toList.length) : Normal name := by
  apply normal_of_chars hchars
  · exact fun h => by simp [h] at hlength
  · exact fun h => by simp [h] at hlength
  · exact fun h => by simp [h] at hlength

theorem normal_of_safeComponent {name : String} (h : safeComponent name = true) : Normal name := by
  obtain ⟨hempty, hsafe⟩ := Bool.and_eq_true_iff.mp h
  have hsafe := List.all_eq_true.mp hsafe
  have hdot (cs : List Char) (hcs : name.toList = '.' :: cs) : False := by
    have hmem := hsafe '.' (hcs ▸ List.mem_cons_self)
    exact absurd hmem (by decide)
  refine normal_of_chars (List.all_eq_true.mpr (fun c hc => ?_)) ?_ (fun h => hdot _ h) (fun h => hdot _ h)
  · simp [nameChar, hsafe c hc]
  · intro hnil
    have hname : name = "" := String.toList_inj.mp (by simpa using hnil)
    simp [hname] at hempty

theorem nameChar_of_mem_toDigits {n : Nat} {c : Char} (hc : c ∈ Nat.toDigits 10 n) : nameChar c = true := by
  have hdigit := Nat.isDigit_of_mem_toDigits (by decide) (by decide) hc
  simp [nameChar, safeChar, Char.isAlphanum, hdigit]

theorem nameChar_of_mem_hex {bytes : Bytes} {c : Char} (hc : c ∈ (Bytes.hex bytes).toList) :
    nameChar c = true := by
  have hdigits : ∀ n < 16, nameChar (Char.ofNat (Bytes.hexDigit n).toNat) = true := by decide
  rw [Bytes.hex, String.toList_ofList] at hc
  obtain ⟨d, hd, rfl⟩ := List.mem_map.mp hc
  obtain ⟨b, -, hmem⟩ := List.mem_flatMap.mp hd
  have hlt := b.toNat_lt
  rcases List.mem_cons.mp hmem with rfl | hmem
  · exact hdigits _ (by omega)
  · rw [List.mem_singleton.mp hmem]
    exact hdigits _ (Nat.mod_lt _ (by decide))

theorem normal_keyId (keyId : KeyId) : Normal keyId.label := normal_of_safeComponent keyId.safe

theorem normal_ceremonyId (cid : CeremonyId) : Normal cid.id := normal_of_safeComponent cid.safe

theorem normal_numbered {stem ending : String} (n : Nat) (hstem : stem.toList.all nameChar = true)
    (hending : ending.toList.all nameChar = true) (hlength : 2 < stem.toList.length) :
    Normal (stem ++ toString n ++ ending) := by
  apply normal_of_length
  · apply List.all_eq_true.mpr
    intro c hc
    simp only [String.toList_append, List.mem_append, Nat.toString_eq_repr, Nat.toList_repr] at hc
    rcases hc with (hc | hc) | hc
    · exact List.all_eq_true.mp hstem c hc
    · exact nameChar_of_mem_toDigits hc
    · exact List.all_eq_true.mp hending c hc
  · simp only [String.toList_append, List.length_append]
    omega

theorem normal_seatHex (seat : SeatId) : Normal (seatHex seat) := by
  have hlength : (seatHex seat).toList.length = 64 := by
    simp [seatHex, Bytes.hex, Bytes.length_hexBytes, Identifier.serialize, Bytes.length_bigEndian]
  apply normal_of_length
  · exact List.all_eq_true.mpr (fun c hc => nameChar_of_mem_hex hc)
  · rw [hlength]
    decide

theorem normal_seatFile (seat : SeatId) : Normal ("seat-" ++ seatHex seat ++ ".age") := by
  apply normal_of_length
  · apply List.all_eq_true.mpr
    intro c hc
    simp only [String.toList_append, List.mem_append] at hc
    rcases hc with (hc | hc) | hc
    · exact List.all_eq_true.mp (by decide : "seat-".toList.all nameChar = true) c hc
    · exact nameChar_of_mem_hex hc
    · exact List.all_eq_true.mp (by decide : ".age".toList.all nameChar = true) c hc
  · simp [String.toList_append]

theorem normal_tempFile (pid nanos n : Nat) : Normal ("." ++ uniqueSuffix pid nanos n ++ ".tmp") := by
  apply normal_of_length
  · apply List.all_eq_true.mpr
    intro c hc
    simp only [String.toList_append, List.mem_append, toList_uniqueSuffix, List.mem_cons] at hc
    rcases hc with (hc | hc | rfl | hc | rfl | hc) | hc
    · exact List.all_eq_true.mp (by decide : ".".toList.all nameChar = true) c hc
    · exact nameChar_of_mem_toDigits hc
    · decide
    · exact nameChar_of_mem_toDigits hc
    · decide
    · exact nameChar_of_mem_toDigits hc
    · exact List.all_eq_true.mp (by decide : ".tmp".toList.all nameChar = true) c hc
  · simp [String.toList_append]

/-! ## Below the root -/

/-- The root, and normal names after it. -/
def Below (root p : FilePath) : Prop := ∃ names, p = root ++ names ∧ ∀ name ∈ names, Normal name

/-- The directory tree that a call removes. -/
def tree : SysOp → Option FilePath
  | .removeDirAll p => some p
  | _ => none

/-- A call that is given no path but those below the root, and removes no tree but
    those that are listed. -/
structure Inside (root : FilePath) (trees : List FilePath) (op : SysOp) : Prop where
  below : ∀ p ∈ op.paths, Below root p
  removes : ∀ p, tree op = some p → p ∈ trees

/-- A suffix is one that the process has made. -/
def Suffixed : (op : SysOp) → op.Resp → Prop
  | .uniqueSuffix, s => ∃ pid nanos n, s = uniqueSuffix pid nanos n
  | _, _ => True

variable {root p dir : FilePath} {name : String} {trees : List FilePath}

theorem below_append {names : List String} (h : ∀ name ∈ names, Normal name) : Below root (root ++ names) :=
  ⟨names, rfl, h⟩

theorem Below.concat (h : Below root dir) (hname : Normal name) : Below root (dir ++ [name]) := by
  obtain ⟨names, rfl, hnames⟩ := h
  refine ⟨names ++ [name], List.append_assoc _ _ _, fun x hx => ?_⟩
  rcases List.mem_append.mp hx with hx | hx
  · exact hnames x hx
  · exact List.mem_singleton.mp hx ▸ hname

theorem inside_one {op : SysOp} (hpaths : op.paths = [p]) (htree : tree op = none) (h : Below root p) :
    Inside root trees op where
  below q hq := by
    rw [hpaths] at hq
    exact List.mem_singleton.mp hq ▸ h
  removes q hq := by
    rw [htree] at hq
    cases hq

theorem inside_none {op : SysOp} (hpaths : op.paths = []) (htree : tree op = none) :
    Inside root trees op where
  below q hq := by
    rw [hpaths] at hq
    cases hq
  removes q hq := by
    rw [htree] at hq
    cases hq

theorem below_root (root : FilePath) : Below root root := ⟨[], (List.append_nil _).symm, fun _ h => nomatch h⟩

/-- The path of a file in a directory below the root. -/
def FileBelow (root p : FilePath) : Prop := ∃ dir name, p = dir ++ [name] ∧ Below root dir ∧ Normal name

theorem FileBelow.below (h : FileBelow root p) : Below root p := by
  obtain ⟨dir, name, rfl, hdir, hname⟩ := h
  exact hdir.concat hname

theorem FileBelow.dropLast (h : FileBelow root p) : Below root p.dropLast := by
  obtain ⟨dir, name, rfl, hdir, -⟩ := h
  rwa [List.dropLast_concat]

theorem fileBelow_manifestPath (root : FilePath) : FileBelow root (manifestPath root) :=
  ⟨root, "manifest.json", rfl, below_root root, normal_of_length (by decide) (by decide)⟩

theorem fileBelow_sharePath (root : FilePath) (tag : ShareTag) : FileBelow root (sharePath root tag) := by
  have hepoch : Normal ("epoch-" ++ toString tag.epoch.number.toNat ++ "") :=
    normal_numbered _ (by decide) (by decide) (by decide)
  rw [String.append_empty] at hepoch
  refine ⟨_, _, sharePath_eq_concat root tag, below_append ?_, normal_seatFile tag.seat⟩
  intro name hname
  simp only [List.mem_cons, List.not_mem_nil, or_false] at hname
  rcases hname with rfl | rfl | rfl
  · exact normal_of_length (by decide) (by decide)
  · exact normal_keyId tag.keyId
  · exact hepoch

theorem fileBelow_publicPath (root : FilePath) (keyId : KeyId) (epoch : Epoch) :
    FileBelow root (publicPath root keyId epoch) := by
  refine ⟨_, _, publicPath_eq_concat root keyId epoch, below_append ?_,
    normal_numbered _ (by decide) (by decide) (by decide)⟩
  intro name hname
  simp only [List.mem_cons, List.not_mem_nil, or_false] at hname
  rcases hname with rfl | rfl
  · exact normal_of_length (by decide) (by decide)
  · exact normal_keyId keyId

theorem below_ceremonyDir (root : FilePath) (cid : CeremonyId) : Below root (ceremonyDir root cid) := by
  apply below_append
  intro name hname
  simp only [List.mem_cons, List.not_mem_nil, or_false] at hname
  rcases hname with rfl | rfl
  · exact normal_of_length (by decide) (by decide)
  · exact normal_ceremonyId cid

theorem fileBelow_roundPath (root : FilePath) (cid : CeremonyId) (seat : SeatId) (round : UInt8) :
    FileBelow root (roundPath root cid seat round) := by
  have hround : Normal ("round-" ++ toString round.toNat ++ ".age") :=
    normal_numbered _ (by decide) (by decide) (by decide)
  have hseat := (below_ceremonyDir root cid).concat (normal_seatHex seat)
  refine ⟨_, _, ?_, hseat, hround⟩
  rw [roundPath, List.append_assoc, List.singleton_append]

/-! ## The calls -/

section Programs

variable [KeyCodec] [Json]

theorem read_inside (h : Below root p) : (io (sys (SysOp.read p))).Uses (Inside root trees) :=
  uses_io ⟨inside_one rfl rfl h, fun _ => trivial⟩

/-- Giving up the result changes nothing. -/
theorem discard_inside {α : Type} {p : StoreM α} (h : p.Uses (Inside root trees)) :
    (do let _ ← p : StoreM Unit).UsesUnder Suffixed (Inside root trees) :=
  (h.bind (fun _ => Program.uses_done _ _)).under

theorem createDirSecure_inside (h : Below root p) : (createDirSecure p).Uses (Inside root trees) := by
  refine Program.Uses.bind (p := sys (.isDir p)) ⟨inside_one rfl rfl h, fun _ => trivial⟩ (fun isDir => ?_)
  cases isDir with
  | true => trivial
  | false => exact uses_io ⟨inside_one rfl rfl h, fun _ => trivial⟩

theorem cleanUp_inside (h : Below root p) (e : IoError) : (cleanUp p e).Uses (Inside root trees) :=
  ⟨inside_one rfl rfl h, fun _ => trivial⟩

omit [KeyCodec] [Json] in
theorem writeTemp_inside (h : Below root p) (bytes : Bytes) : (writeTemp p bytes).Uses (Inside root trees) := by
  refine ⟨inside_one rfl rfl h, fun created => (Program.uses_ofExcept _ created).bind (fun _ => ?_)⟩
  refine ⟨inside_one rfl rfl h, fun written => (Program.uses_ofExcept _ written).bind (fun _ => ?_)⟩
  exact ⟨inside_one rfl rfl h, fun synced => Program.uses_ofExcept _ synced⟩

theorem writeAtomic_inside (h : FileBelow root p) (bytes : Bytes) :
    (writeAtomic p bytes).UsesUnder Suffixed (Inside root trees) := by
  unfold writeAtomic
  split
  · trivial
  · refine ⟨inside_none rfl rfl, ?_⟩
    rintro suffix ⟨pid, nanos, n, rfl⟩
    have htmp : Below root (tempPath p.dropLast (uniqueSuffix pid nanos n)) :=
      h.dropLast.concat (normal_tempFile pid nanos n)
    apply Program.Uses.under
    refine (writeTemp_inside htmp bytes).attempt.bind (fun written => ?_)
    cases written with
    | error e => exact cleanUp_inside htmp e
    | ok out =>
        refine ⟨⟨fun q hq => ?_, fun q hq => nomatch hq⟩, fun renamed => ?_⟩
        · rcases List.mem_cons.mp hq with rfl | hq
          · exact htmp
          · exact List.mem_singleton.mp hq ▸ h.below
        · cases renamed with
          | error e => exact cleanUp_inside htmp e
          | ok out => exact uses_io ⟨inside_one rfl rfl h.dropLast, fun _ => trivial⟩

variable [Age]

theorem putPublicEnvelope_inside (self : ParticipantStore) (keyId : KeyId) (epoch : Epoch)
    (group : PublicKeyPackage) :
    (self.putPublicEnvelope keyId epoch group).UsesUnder Suffixed (Inside self.root trees) := by
  have hpath := fileBelow_publicPath self.root keyId epoch
  refine (Program.uses_ofExcept _ _).under.bind (fun envelope => ?_)
  refine (Program.uses_ofExcept _ _).under.bind (fun json => ?_)
  exact (createDirSecure_inside hpath.dropLast).under.bind (fun _ => writeAtomic_inside hpath json)

theorem loadManifest_inside (self : ParticipantStore) : self.loadManifest.Uses (Inside self.root trees) := by
  refine ⟨inside_one rfl rfl (fileBelow_manifestPath self.root).below, fun content => ?_⟩
  cases content with
  | ok bytes => exact Program.uses_ofExcept _ _
  | error e => cases e <;> trivial

theorem putShare_inside (self : ParticipantStore) (tag : ShareTag) (keyPackage : KeyPackage)
    (group : PublicKeyPackage) (state : ShareState) :
    (self.putShare tag keyPackage group state).UsesUnder Suffixed (Inside self.root trees) := by
  have hshare := fileBelow_sharePath self.root tag
  have hmanifest := fileBelow_manifestPath self.root
  refine (Program.uses_ofExcept _ _).under.bind (fun passphrase => ?_)
  refine (putPublicEnvelope_inside self tag.keyId tag.epoch group).bind (fun _ => ?_)
  refine (createDirSecure_inside hshare.dropLast).under.bind (fun _ => ?_)
  refine (Program.uses_ofExcept _ _).under.bind (fun plaintext => ?_)
  refine ⟨inside_none rfl rfl, fun entropy _ => ?_⟩
  refine (Program.uses_ofExcept _ _).under.bind (fun ciphertext => ?_)
  refine (writeAtomic_inside hshare ciphertext).bind (fun _ => ?_)
  refine (loadManifest_inside self).under.bind (fun manifest => ?_)
  refine ⟨inside_none rfl rfl, fun now _ => ?_⟩
  refine (createDirSecure_inside (below_root self.root)).under.bind (fun _ => ?_)
  refine (Program.uses_ofExcept _ _).under.bind (fun json => ?_)
  exact writeAtomic_inside hmanifest json

theorem loadPublicEnvelope_inside (self : ParticipantStore) (keyId : KeyId) (epoch : Epoch) :
    (self.loadPublicEnvelope keyId epoch).Uses (Inside self.root trees) := by
  have hpath := fileBelow_publicPath self.root keyId epoch
  exact (read_inside hpath.below).bind (fun _ => Program.uses_ofExcept _ _)

theorem loadShare_inside (self : ParticipantStore) (tag : ShareTag) :
    (self.loadShare tag).Uses (Inside self.root trees) := by
  have hpath := fileBelow_sharePath self.root tag
  refine (Program.uses_ofExcept _ _).bind (fun passphrase => ?_)
  refine (read_inside hpath.below).bind (fun ciphertext => ?_)
  exact (Program.uses_ofExcept _ _).bind (fun plaintext => Program.uses_ofExcept _ _)

/-- Whatever the manifest says, the share that is read has a tag. -/
theorem loadOnlyActive_inside (self : ParticipantStore) : self.loadOnlyActive.Uses (Inside self.root trees) := by
  refine (loadManifest_inside self).bind (fun manifest => ?_)
  refine (Program.uses_ofExcept _ _).bind (fun entry => ?_)
  refine (Program.uses_ofExcept _ _).bind (fun keyId => ?_)
  refine (Program.uses_ofExcept _ _).bind (fun seat => ?_)
  exact (loadShare_inside self ⟨keyId, ⟨entry.epoch⟩, seat⟩).bind (fun _ => trivial)

theorem putRound_inside (self : CheckpointStore) (cid : CeremonyId) (seat : SeatId) (round : UInt8)
    (plaintext : Bytes) :
    (self.putRound cid seat round plaintext).UsesUnder Suffixed (Inside self.root trees) := by
  have hpath := fileBelow_roundPath self.root cid seat round
  refine (Program.uses_ofExcept _ _).under.bind (fun passphrase => ?_)
  refine ⟨inside_none rfl rfl, fun entropy _ => ?_⟩
  refine (Program.uses_ofExcept _ _).under.bind (fun ciphertext => ?_)
  exact (createDirSecure_inside hpath.dropLast).under.bind (fun _ => writeAtomic_inside hpath ciphertext)

theorem loadRound_inside (self : CheckpointStore) (cid : CeremonyId) (seat : SeatId) (round : UInt8) :
    (self.loadRound cid seat round).Uses (Inside self.root trees) := by
  have hpath := fileBelow_roundPath self.root cid seat round
  refine (Program.uses_ofExcept _ _).bind (fun passphrase => ?_)
  exact (read_inside hpath.below).bind (fun _ => Program.uses_ofExcept _ _)

theorem wipe_inside (self : CheckpointStore) (cid : CeremonyId) :
    (self.wipe cid).Uses (Inside self.root [ceremonyDir self.root cid]) := by
  have hbelow := below_ceremonyDir self.root cid
  refine ⟨⟨fun q hq => ?_, fun q hq => ?_⟩, fun removed => ?_⟩
  · exact List.mem_singleton.mp hq ▸ hbelow
  · exact List.mem_singleton.mpr (Option.some.inj hq).symm
  cases removed with
  | ok out => trivial
  | error e => cases e <;> trivial

end Programs

/-! ## All of them -/

/-- A call of one of the stores. -/
inductive StoreRequest [KeyCodec] where
  | putShare (tag : ShareTag) (keyPackage : KeyPackage) (group : PublicKeyPackage) (state : ShareState)
  | loadShare (tag : ShareTag)
  | loadOnlyActive
  | putPublicEnvelope (keyId : KeyId) (epoch : Epoch) (group : PublicKeyPackage)
  | loadPublicEnvelope (keyId : KeyId) (epoch : Epoch)
  | putRound1 (cid : CeremonyId) (seat : SeatId) (pkg : Dkg.R1Secret)
  | loadRound1 (cid : CeremonyId) (seat : SeatId)
  | putRound2 (cid : CeremonyId) (seat : SeatId) (pkg : Dkg.R2Secret)
  | loadRound2 (cid : CeremonyId) (seat : SeatId)
  | wipe (cid : CeremonyId)

namespace StoreRequest

variable [KeyCodec] [Json] [Age] [RoundCodec]

/-- The call, on stores at a root, without its result. -/
def program (root : FilePath) (passphrase : Except StoreError Passphrase) : StoreRequest → StoreM Unit
  | .putShare tag keyPackage group state =>
      ParticipantStore.putShare ⟨root, passphrase⟩ tag keyPackage group state
  | .loadShare tag => do let _ ← ParticipantStore.loadShare ⟨root, passphrase⟩ tag
  | .loadOnlyActive => do let _ ← ParticipantStore.loadOnlyActive ⟨root, passphrase⟩
  | .putPublicEnvelope keyId epoch group =>
      ParticipantStore.putPublicEnvelope ⟨root, passphrase⟩ keyId epoch group
  | .loadPublicEnvelope keyId epoch => do
      let _ ← ParticipantStore.loadPublicEnvelope ⟨root, passphrase⟩ keyId epoch
  | .putRound1 cid seat pkg => CheckpointStore.putRound1 ⟨root, passphrase⟩ cid seat pkg
  | .loadRound1 cid seat => do let _ ← CheckpointStore.loadRound1 ⟨root, passphrase⟩ cid seat
  | .putRound2 cid seat pkg => CheckpointStore.putRound2 ⟨root, passphrase⟩ cid seat pkg
  | .loadRound2 cid seat => do let _ ← CheckpointStore.loadRound2 ⟨root, passphrase⟩ cid seat
  | .wipe cid => CheckpointStore.wipe ⟨root, passphrase⟩ cid

/-- The directory trees that a call may remove. -/
def removes (root : FilePath) : StoreRequest → List FilePath
  | .wipe cid => [ceremonyDir root cid]
  | _ => []

theorem program_inside (call : StoreRequest) (root : FilePath) (passphrase : Except StoreError Passphrase) :
    (call.program root passphrase).UsesUnder Suffixed (Inside root (call.removes root)) := by
  cases call with
  | putShare tag keyPackage group state =>
      exact putShare_inside ⟨root, passphrase⟩ tag keyPackage group state
  | loadShare tag => exact discard_inside (loadShare_inside ⟨root, passphrase⟩ tag)
  | loadOnlyActive => exact discard_inside (loadOnlyActive_inside ⟨root, passphrase⟩)
  | putPublicEnvelope keyId epoch group =>
      exact putPublicEnvelope_inside ⟨root, passphrase⟩ keyId epoch group
  | loadPublicEnvelope keyId epoch =>
      exact discard_inside (loadPublicEnvelope_inside ⟨root, passphrase⟩ keyId epoch)
  | putRound1 cid seat pkg =>
      exact (Program.uses_ofExcept _ _).under.bind (fun _ => putRound_inside ⟨root, passphrase⟩ cid seat 1 _)
  | loadRound1 cid seat =>
      have hload : (CheckpointStore.loadRound ⟨root, passphrase⟩ cid seat 1).Uses (Inside root []) :=
        loadRound_inside ⟨root, passphrase⟩ cid seat 1
      exact discard_inside (hload.bind (fun _ => Program.uses_ofExcept _ _))
  | putRound2 cid seat pkg =>
      exact (Program.uses_ofExcept _ _).under.bind (fun _ => putRound_inside ⟨root, passphrase⟩ cid seat 2 _)
  | loadRound2 cid seat =>
      have hload : (CheckpointStore.loadRound ⟨root, passphrase⟩ cid seat 2).Uses (Inside root []) :=
        loadRound_inside ⟨root, passphrase⟩ cid seat 2
      exact discard_inside (hload.bind (fun _ => Program.uses_ofExcept _ _))
  | wipe cid => exact (wipe_inside ⟨root, passphrase⟩ cid).under

/-- Whatever the disk, the manifest and the answers of the system are: every path
    that a call is given is the root followed by normal names, which joining them one
    by one to a path takes as one component each. And the only tree that is removed
    is one component below the directory of the ceremonies. Creating a directory may
    create the root, with what is missing above it. -/
theorem paths_below_root (call : StoreRequest) (root : FilePath) (passphrase : Except StoreError Passphrase)
    {σ : Type} {h : Handler SysOp SysOp.Resp σ}
    (hsuffix : ∀ s, ∃ pid nanos n, (h .uniqueSuffix s).1 = uniqueSuffix pid nanos n) (s : σ) :
    ∀ ev ∈ ((call.program root passphrase).run h s).trace,
      (∀ p ∈ ev.op.paths, ∃ names, p = root ++ names ∧ (∀ name ∈ names, Normal name) ∧
        ∀ base : PathBuf, (names.foldl join base).components =
          base.components ++ names.map (fun name => .normal name.toList)) ∧
      ∀ p, ev.op = .removeDirAll p →
        ∃ cid, call = .wipe cid ∧ p = root ++ ["ceremonies", cid.id] ∧ Normal cid.id := by
  intro ev hev
  have hanswers : ∀ op s, Suffixed op (h op s).1 := by
    intro op s
    cases op with
    | uniqueSuffix => exact hsuffix s
    | _ => trivial
  have hinside := (call.program_inside root passphrase).of_mem_trace hanswers hev
  constructor
  · intro p hp
    obtain ⟨names, hpath, hnames⟩ := hinside.below p hp
    exact ⟨names, hpath, hnames, fun base => base.components_joins hnames⟩
  · intro p hp
    have hmem := hinside.removes p (by rw [hp]; rfl)
    cases call with
    | wipe cid =>
        exact ⟨cid, rfl, List.mem_singleton.mp hmem, normal_ceremonyId cid⟩
    | _ => cases hmem

end StoreRequest

namespace Plain

/-- An environment that gives suffixes as a process does. -/
def suffixed : SysEnv := { SysEnv.calm with suffix := fun tick => uniqueSuffix 7 0 tick }

def firstCeremony : CeremonyId := ⟨"dkg-1", by decide⟩

/-- A manifest that leads out of the root as it stands, and spells a seat with plus
    signs. -/
def hostile : List ShareEntry :=
  [⟨"..", 0, "/", .retired, 0⟩, ⟨"active", 7, String.join (List.replicate 32 "+1"), .active, 0⟩]

def hostileRoot : FileTree :=
  ((∅ : FileTree).insert ["r"] .dir).insert (manifestPath ["r"]) (.file (1 :: hostile.flatMap ofEntry))

def hostileTrace (call : StoreRequest) : List (Event SysOp SysOp.Resp) :=
  ((call.program ["r"] (.ok secret)).run suffixed.world ⟨hostileRoot, 0⟩).trace

/-- The seat that the plus signs spell. -/
def plusSeat : SeatId := ⟨Bytes.ofBigEndian (List.replicate 32 1), by decide +kernel, by decide +kernel⟩

/-- Load the listed share, put one beside it, wipe a ceremony. -/
def hostileCalls : List StoreRequest :=
  [.loadOnlyActive, .putShare firstTag ((1, 7) : UInt8 × UInt8) (7 : UInt8) .active, .wipe firstCeremony]

theorem hostileTrace_loadOnlyActive : (hostileTrace .loadOnlyActive).flatMap (·.op.paths) =
    [manifestPath ["r"], sharePath ["r"] ⟨.active, ⟨7⟩, plusSeat⟩] := by
  decide +kernel

theorem paths_below_root_hostile :
    (hostileTrace .loadOnlyActive).flatMap (·.op.paths) =
        [manifestPath ["r"], sharePath ["r"] ⟨.active, ⟨7⟩, plusSeat⟩] ∧
      ∀ call ∈ hostileCalls, ∀ ev ∈ hostileTrace call,
        (∀ p ∈ ev.op.paths, ∃ names, p = "r" :: names ∧ ∀ name ∈ names, Normal name) ∧
        ∀ p, ev.op = .removeDirAll p → ∃ cid : CeremonyId, p = ["r", "ceremonies", cid.id] := by
  refine ⟨hostileTrace_loadOnlyActive, fun call _ ev hev => ?_⟩
  have hall := StoreRequest.paths_below_root call ["r"] (.ok secret) (h := suffixed.world)
    (fun s => ⟨7, 0, s.tick, rfl⟩) ⟨hostileRoot, 0⟩
  obtain ⟨hbelow, hremoves⟩ := hall ev hev
  refine ⟨fun p hp => ?_, fun p hp => ?_⟩
  · obtain ⟨names, hpath, hnormal, -⟩ := hbelow p hp
    exact ⟨names, hpath, hnormal⟩
  · obtain ⟨cid, -, hpath, -⟩ := hremoves p hp
    exact ⟨cid, hpath⟩

end Plain

end Store
