import DolTranslator.Gqr.Solution
import DolTranslator.Flags.LinkRegister
import DolTranslator.Ppc.BasicBlocks
import DolTranslator.Abi.LivenessSound
import DolTranslator.Os.AlarmLaw
import DolTranslator.Os.AlarmGuard
import DolTranslator.Os.MessageLaw
import DolTranslator.Gx.Dirty
import DolTranslator.Gx.Skipping
import DolTranslator.Disc.RvzReads
import DolTranslator.Disc.Gcz
import DolTranslator.Disc.Container
import DolTranslator.Gx.RenderThread
import DolTranslator.Gx.Batches
import DolTranslator.Nand.SysconfSettings
import DolTranslator.Nand.History
import DolTranslator.Dvd.ReadLaw
import DolTranslator.Guest.DeferredLaw
import DolTranslator.Archive.AshBounds
import DolTranslator.Disc.RvzBounds
import DolTranslator.Disc.U8Bounds
import DolTranslator.Disc.Clusters
import DolTranslator.Gx.Expansion
import DolTranslator.Gx.ShaderCache
import DolTranslator.Gx.BurstSame
import DolTranslator.Os.SelectRuns
import DolTranslator.Nand.SysconfBounds
import DolTranslator.Nand.WadBuild
import DolTranslator.Nand.MiiDatabase
import DolTranslator.Thp.Planes
import DolTranslator.Audio.CommandListLaw
import DolTranslator.Audio.VoiceLaw
import DolTranslator.Gx.TextureLaw
import DolTranslator.Audio.MixKernelsLaw
import DolTranslator.Dvd.ExternalPaths
import DolTranslator.Ppc.RawBranches
import DolTranslator.Ssa.Termination
import DolTranslator.Input.ExpressionPrint
import DolTranslator.Guest.FastPointers
import DolTranslator.Psq.Agreement
import DolTranslator.Gqr.Hoisting
import DolTranslator.Ir.FifoBursts
import DolTranslator.Abi.NonvolatileFprs
