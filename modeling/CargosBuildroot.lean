import CargosBuildroot.Accounts.Conflicts
import CargosBuildroot.Accounts.Created
import CargosBuildroot.Accounts.TableRead
import CargosBuildroot.Bootstrap.Groups
import CargosBuildroot.Bootstrap.Inet
import CargosBuildroot.Bootstrap.Mime
import CargosBuildroot.Bootstrap.Padding
import CargosBuildroot.Depends.AllDepends
import CargosBuildroot.Depends.Drawing
import CargosBuildroot.Depends.Reduction
import CargosBuildroot.Developers.Touched
import CargosBuildroot.Download.Cleanup
import CargosBuildroot.External.Agree
import CargosBuildroot.Gconv.Exact
import CargosBuildroot.Host.Dependencies
import CargosBuildroot.Host.Fakedate
import CargosBuildroot.Kconfig.Edits
import CargosBuildroot.Kconfig.Merge
import CargosBuildroot.Kconfig.Walk
import CargosBuildroot.Libtool.Exact
import CargosBuildroot.Makedevs.Blanks
import CargosBuildroot.Makedevs.Capabilities
import CargosBuildroot.Makedevs.Lines
import CargosBuildroot.Makedevs.Owners
import CargosBuildroot.Manual.Providers
import CargosBuildroot.Patches.Duplicates
import CargosBuildroot.Rc.LogFile
import CargosBuildroot.Rc.RealWork
import CargosBuildroot.Scancpan.Closed
import CargosBuildroot.Stamps.Rebuilt
import CargosBuildroot.Statistics.Interrupted
import CargosBuildroot.Statistics.Sizes
import CargosBuildroot.Toolchain.Base
import CargosBuildroot.Toolchain.ExecVector
import CargosBuildroot.Toolchain.Scan
import CargosBuildroot.Upgrade.DryRun
import CargosBuildroot.Upgrade.Install
import CargosBuildroot.Upgrade.Lock
