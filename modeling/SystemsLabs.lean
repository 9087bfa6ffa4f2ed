import SystemsLabs.Library.Runs
import SystemsLabs.Library.Tiling
import SystemsLabs.Malloc.Allocator
import SystemsLabs.Malloc.Layout
import SystemsLabs.Malloc.Coalesce
import SystemsLabs.Malloc.WellFormed
import SystemsLabs.Malloc.Free
import SystemsLabs.Malloc.Allocate
import SystemsLabs.Malloc.Walk
import SystemsLabs.Malloc.Reallocate
import SystemsLabs.Malloc.Outline
import SystemsLabs.Malloc.Session
import SystemsLabs.Malloc.Sketch
import SystemsLabs.Malloc.Guarantees
import SystemsLabs.Malloc.Confluence
import SystemsLabs.Csim.Lines
import SystemsLabs.Csim.History
import SystemsLabs.Csim.Counters
import SystemsLabs.Csim.Reference
import SystemsLabs.Csim.Guarantees
import SystemsLabs.Tsh.Interleaving
import SystemsLabs.Tsh.JobTable
import SystemsLabs.Tsh.Foreground
import SystemsLabs.Tsh.Handler
import SystemsLabs.Tsh.JobIds
import SystemsLabs.Tsh.Routines
import SystemsLabs.Tsh.Forwarding
import SystemsLabs.Tsh.Continuing
import SystemsLabs.Library.Footprint
import SystemsLabs.Transpose.Kernels
import SystemsLabs.Transpose.Accesses
import SystemsLabs.Transpose.Guarantees
import SystemsLabs.Malloc.Contents
import SystemsLabs.Malloc.Refusal
import SystemsLabs.Malloc.Requests
import SystemsLabs.Malloc.Reads
import SystemsLabs.Malloc.Sizes
import SystemsLabs.Malloc.Checker
import SystemsLabs.Malloc.Counts
import SystemsLabs.Library.Strings
import SystemsLabs.Library.Words
import SystemsLabs.Tsh.CommandLine
import SystemsLabs.Tsh.Operands
import SystemsLabs.Bits.Puzzles
import SystemsLabs.Bits.Twice
import SystemsLabs.Bits.Conversion
import SystemsLabs.Malloc.Reshape
import SystemsLabs.Malloc.Twins
import SystemsLabs.Malloc.Driver
import SystemsLabs.Malloc.Replay
import SystemsLabs.Malloc.Verdict
import SystemsLabs.Malloc.Utilization
import SystemsLabs.Csim.TraceFile
import SystemsLabs.Csim.Markers
import SystemsLabs.Malloc.TraceFile
import SystemsLabs.Csim.Distance
import SystemsLabs.Tsh.Draining
import SystemsLabs.Tsh.Prompt
import SystemsLabs.Tsh.Listing
import SystemsLabs.Tsh.Eval
import SystemsLabs.Bits.Integers
import SystemsLabs.Bits.Btest
import SystemsLabs.Transpose.Once
import SystemsLabs.Transpose.Tracegen
import SystemsLabs.Csim.Compulsory
import SystemsLabs.Transpose.Misses
import SystemsLabs.Bits.Half
import SystemsLabs.Placement
import SystemsLabs.Labsh
