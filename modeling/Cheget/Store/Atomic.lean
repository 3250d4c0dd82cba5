-- SUMMARY: Creating directories and replacing files so that a reader never sees a part of one.
import Cheget.Store.Manifest

namespace Store

open Crypto

variable [KeyCodec] [Json]

/-- Create a directory and what is missing above it. -/
def createDirSecure (path : FilePath) : StoreM Unit := do
  let isDir ← sys (SysOp.isDir path)
  if isDir then
    pure ()
  else
    io (sys (SysOp.createDirAll path))

/-- `unique_suffix`, by the process id, the time, and the counter of the process, which
    has 64 bits and does not come round. -/
def uniqueSuffix (pid nanos n : Nat) : String :=
  toString pid ++ "-" ++ toString nanos ++ "-" ++ toString n

/-- The temporary file in a directory. -/
def tempPath (dir : FilePath) (suffix : String) : FilePath := dir ++ ["." ++ suffix ++ ".tmp"]

/-- The scope of the temporary file: create it, fill it, and flush it. -/
def writeTemp (tmp : FilePath) (bytes : Bytes) : SysM IoError Unit := do
  let created ← sys (SysOp.createNew tmp)
  Program.ofExcept created
  let written ← sys (SysOp.writeAll tmp bytes)
  Program.ofExcept written
  let synced ← sys (SysOp.syncAll tmp)
  Program.ofExcept synced

/-- Best-effort removal of the temporary file; the error is passed on. -/
def cleanUp (tmp : FilePath) (e : IoError) : StoreM Unit := do
  let _ ← sys (SysOp.removeFile tmp)
  .fail (.io e)

/-- Replace a file by way of a temporary one beside it. -/
def writeAtomic (finalPath : FilePath) (bytes : Bytes) : StoreM Unit :=
  if finalPath = [] then
    .fail (.io (.other 22))
  else do
    let dir := finalPath.dropLast
    let suffix ← sys SysOp.uniqueSuffix
    let tmp := tempPath dir suffix
    let written ← (writeTemp tmp bytes).attempt
    match written with
    | .error e => cleanUp tmp e
    | .ok () => do
        let renamed ← sys (SysOp.rename tmp finalPath)
        match renamed with
        | .error e => cleanUp tmp e
        | .ok () => io (sys (SysOp.syncAll dir))

end Store
