import CosmoRuby.Lib.Bytes
import CosmoRuby.Lib.Feed
import CosmoRuby.Http.Tables
import CosmoRuby.Http.Header
import CosmoRuby.Http.Message
import CosmoRuby.Http.Machine
import CosmoRuby.Http.Fragments
import CosmoRuby.Http.Grammar
import CosmoRuby.Http.Sections
import CosmoRuby.Http.Framing
import CosmoRuby.Http.Slices
import CosmoRuby.Http.Unchunk
import CosmoRuby.Http.Chunked
import CosmoRuby.Lib.Loop
import CosmoRuby.Lib.Reach
import CosmoRuby.Lib.Word
import CosmoRuby.Lib.Truncate
import CosmoRuby.Http.TokenBucket
import CosmoRuby.Http.Range
import CosmoRuby.Http.Forwarded
import CosmoRuby.Http.Replenish
import CosmoRuby.Http.DateTime
import CosmoRuby.Url.Parse
import CosmoRuby.Url.Encode
import CosmoRuby.Url.Text
import CosmoRuby.Url.Loops
import CosmoRuby.Url.Query
import CosmoRuby.Url.Authority
import CosmoRuby.Url.Scheme
import CosmoRuby.Url.Reparse
import CosmoRuby.Url.Size
import CosmoRuby.Url.RoundTrip
import CosmoRuby.Libc.Strtoul
import CosmoRuby.Libc.Strtol
import CosmoRuby.Libc.Timespec
import CosmoRuby.Plugin.Archive
import CosmoRuby.Lib.LittleEndian
import CosmoRuby.Lib.Outcome
import CosmoRuby.Plugin.Object
import CosmoRuby.Plugin.Relocate
import CosmoRuby.Plugin.Effects
import CosmoRuby.Plugin.Got
import CosmoRuby.Plugin.Fields
import CosmoRuby.Plugin.Symbols
import CosmoRuby.Lib.Page
import CosmoRuby.Lib.Region
import CosmoRuby.Lib.Escape
import CosmoRuby.Ape.Loader
import CosmoRuby.Ape.Safety
import CosmoRuby.Ape.Image
import CosmoRuby.Ape.Merge
import CosmoRuby.Ape.Printf
import CosmoRuby.Ape.Apelink
import CosmoRuby.Ape.Fixup
import CosmoRuby.Ape.Layout
import CosmoRuby.Lib.FileTree
import CosmoRuby.Caboose.State
import CosmoRuby.Caboose.Copy
import CosmoRuby.Caboose.Disk
import CosmoRuby.Caboose.Overlay
import CosmoRuby.Caboose.Commands
import CosmoRuby.Caboose.Lifecycle
import CosmoRuby.Caboose.Atomic
import CosmoRuby.Caboose.Resume
import CosmoRuby.Mtsh.Tokenize
import CosmoRuby.Mtsh.Script
import CosmoRuby.Mtsh.AndOr
import CosmoRuby.Mtsh.Posix
import CosmoRuby.Lib.Blocks
import CosmoRuby.Crypto.Cipher
import CosmoRuby.Crypto.Chunks
import CosmoRuby.Crypto.Openssl
import CosmoRuby.Crypto.Messages
import CosmoRuby.Lib.Bpf
import CosmoRuby.Pledge.Syscalls
import CosmoRuby.Pledge.Tables
import CosmoRuby.Pledge.Fragments
import CosmoRuby.Pledge.Allowed
import CosmoRuby.Pledge.Filter
import CosmoRuby.Pledge.Program
import CosmoRuby.Pledge.Meaning
import CosmoRuby.Stdio.Update
import CosmoRuby.Windows.Descriptors
import CosmoRuby.Windows.Environ
import CosmoRuby.Windows.Cmdline
import CosmoRuby.Windows.Flocks
import CosmoRuby.Windows.NtPathNormal
import CosmoRuby.Libc.Isutf8
import CosmoRuby.Zip.DosTime
import CosmoRuby.Zip.Eocd
import CosmoRuby.Zip.Lookup
import CosmoRuby.Mmap.Dangerous
import CosmoRuby.Mmap.Limit
import CosmoRuby.Mmap.Pick
import CosmoRuby.Thread.Mutex
import CosmoRuby.Windows.Signals
import CosmoRuby.Windows.SigStop
import CosmoRuby.Windows.Wait4
import CosmoRuby.Thread.Cond
import CosmoRuby.Windows.Tprecode
import CosmoRuby.Ctl.Search
import CosmoRuby.Ctl.Set
