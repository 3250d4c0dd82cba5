-- SUMMARY: Loading the shares of a signing quorum from the seat roots below a base directory.
import Cheget.Cli.Keygen

namespace Cli

open Crypto Store

/-- The seat roots among the entries of the base, in their order. -/
def seatRoots (base : FilePath) (entries : List (Except IoError String)) : List FilePath :=
  let names := (entries.filterMap Except.toOption).filter
    (fun name => "seat-".toList.isPrefixOf name.toList)
  (names.insertionSort (· ≤ ·)).map (fun name => base ++ [name])

variable [KeyCodec] [Json] [Age]

/-- Load the active share of one root. -/
def loadSeat (secret : Passphrase) (keyPackages : BTreeMap Identifier KeyPackage)
    (root : FilePath) : CliM (BTreeMap Identifier KeyPackage) := do
  let root : ParticipantStore := ⟨root, .ok secret⟩
  let (seat, keyPackage) ← store root.loadOnlyActive
  pure (keyPackages.insert seat keyPackage)

/-- Load the shares of the first `t` seat roots, and the group package of the
    first. -/
def loadPersistedShares (base : FilePath) (t : UInt16) (passphrase : Except StoreError Passphrase) :
    CliM (BTreeMap Identifier KeyPackage × PublicKeyPackage) := do
  let entries ← sys (SysOp.readDir base)
  let entries ← lift (entries.mapError .cannotReadBase)
  let roots := seatRoots base entries
  if roots.length < t.toNat then
    lift (.error (.insufficientRoots roots.length t.toNat))
  else
    let selected := roots.take t.toNat
    let secret ← lift (passphrase.mapError .store)
    let keyPackages ← selected.foldlM (loadSeat secret) ∅
    match selected with
    -- indexing the first root panics if there is none
    | [] => .fail .panic
    | first :: _ =>
        let first : ParticipantStore := ⟨first, .ok secret⟩
        let envelope ← store (first.loadPublicEnvelope .active .genesis)
        let group ← Program.ofExcept
          (envelope.decodePackage.mapError (fun e => e.map CliError.envelope))
        pure (keyPackages, group)

end Cli
