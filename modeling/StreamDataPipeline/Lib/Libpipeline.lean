/- Paths and file names shared by the applets (lib/libpipeline.c). -/

import StreamDataPipeline.Foundations.ByteString

set_option autoImplicit false
set_option relaxedAutoImplicit false

namespace StreamDataPipeline.Lib.Libpipeline

open Foundations.ByteString

def pathMax : Nat := 4096

def pipelineSentinelName : Bytes := ascii ".pipeline_end"

/-- The `snprintf` of a path into a buffer of `size` bytes; `none` is the return value -1. -/
def lpBuildArtifactPath (size : Nat) (dir name : Bytes) : Option Bytes :=
  let path := dir ++ ascii "/" ++ name
  if path.length < size then some path else none

/-- Only what follows the last slash counts. -/
def lpIsCompletedSession (filename : Bytes) : Bool :=
  (filename.reverse.takeWhile (· ≠ 47)).reverse == pipelineSentinelName

end StreamDataPipeline.Lib.Libpipeline
