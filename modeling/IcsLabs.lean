import IcsLabs.Asm.Agree
import IcsLabs.Asm.Turns
import IcsLabs.Asm.Align
import IcsLabs.Asm.Output
import IcsLabs.Asm.Reading
import IcsLabs.Asm.Cuts
import IcsLabs.Asm.Wording
import IcsLabs.Asm.Spacing
import IcsLabs.Bits.Agree
import IcsLabs.Csim.Ages
import IcsLabs.Csim.Bounds
import IcsLabs.Csim.Main
import IcsLabs.Csim.Modify
import IcsLabs.Malloc.InPlace
import IcsLabs.Malloc.Relocate
import IcsLabs.Malloc.ReadTrace
import IcsLabs.Malloc.Twin
import IcsLabs.Malloc.Wrap
import IcsLabs.Ncopy.Copy
import IcsLabs.Proxy.Overflow
import IcsLabs.Proxy.Serving
import IcsLabs.Sim.Bounds
import IcsLabs.Sim.Flags
import IcsLabs.Sim.Opcodes
import IcsLabs.Sim.Report
import IcsLabs.Lib.Y86
import IcsLabs.Tsh.Atomic
import IcsLabs.Tsh.Contract
import IcsLabs.Tsh.Groups
import IcsLabs.Tsh.Liveness
import IcsLabs.Tsh.Transcript
import IcsLabs.Tsh.Ids
import IcsLabs.Tsh.CommandLine
import IcsLabs.Transpose.Correct
import IcsLabs.Asm.Program
