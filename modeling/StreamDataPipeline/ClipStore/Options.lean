/- The command line of clip_store (clip_store.c). -/

import StreamDataPipeline.ClipStore.Main
import StreamDataPipeline.Foundations.Getopt

set_option autoImplicit false
set_option relaxedAutoImplicit false

namespace StreamDataPipeline.ClipStore.Options

open Foundations.ByteString Foundations.Getopt Main

inductive ClipStoreOption
  | db | ttl | set | get | list | listPrefix | delete | compact | gc | help
  deriving DecidableEq

def clipStoreOptions : Options ClipStoreOption where
  short := [⟨100, true, .db⟩, ⟨116, true, .ttl⟩, ⟨104, false, .help⟩]
  long := [
    ⟨ascii "db", true, .db⟩,
    ⟨ascii "ttl", true, .ttl⟩,
    ⟨ascii "set", true, .set⟩,
    ⟨ascii "get", true, .get⟩,
    ⟨ascii "list", false, .list⟩,
    ⟨ascii "prefix", true, .listPrefix⟩,
    ⟨ascii "delete", true, .delete⟩,
    ⟨ascii "compact", false, .compact⟩,
    ⟨ascii "gc", false, .gc⟩,
    ⟨ascii "help", false, .help⟩]

structure ClipStoreRead where
  db : Option Bytes
  ttlArg : Bytes
  mode : ClipMode

def handleOption (read : ClipStoreRead) : Found ClipStoreOption → Start ClipStoreRead
  | .option .db optarg => .run { read with db := some optarg }
  | .option .ttl optarg => .run { read with ttlArg := optarg }
  | .option .set optarg => .run { read with mode := .set optarg }
  | .option .get optarg => .run { read with mode := .get optarg }
  | .option .list _ => .run { read with mode := .list }
  | .option .listPrefix optarg => .run { read with mode := .listPrefix optarg }
  | .option .delete optarg => .run { read with mode := .delete optarg }
  | .option .compact _ => .run { read with mode := .compact }
  | .option .gc _ => .run { read with mode := .compact }
  | .option .help _ => .exit 0
  | .mistake => .exit 1

/-- `clip_store_main` up to the path of the database, which may be the first operand. -/
def clipStoreStart (stdin : Bytes) (clock : Nat → Nat) (argv : List Bytes) : Start Invocation :=
  let scanned := scan clipStoreOptions none argv.tail
  (optionLoop handleOption ⟨none, ascii "3600", .append stdin⟩ scanned.found).bind fun read =>
    match read.db.or scanned.operands.head? with
    | some db => .run ⟨db, read.ttlArg, read.mode, clock⟩
    | none => .exit 1

end StreamDataPipeline.ClipStore.Options
